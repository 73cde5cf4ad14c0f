import NexusLOB.Consensus.Election
import NexusLOB.Consensus.Logs

/-!
# Log replication under term leaders

Replicas follow the leader of their term: they take over slices of its log, acknowledge them and
learn commit indexes. Any message ever issued may arrive at any time and any number of times. The
state also records history: which terms had a leader, the log each leader wrote, what was
acknowledged and what was handed out as committed.

A follower need not be careful with its log. In the general system it may fall back to a prefix
of its log, to what it has stored, or take over the leader's log; a `strict` system also demands
that it keeps what it shares with the leader and that a commit index is only learned for entries
it shares with the leader, and excludes the loss of memory. Log matching holds in the general
system.
-/

namespace NexusLOB.Consensus.Replication

variable {N E : Type} {τ : E → Nat}

inductive Msg (N E : Type)
  | request (term : Nat) (candidate : N) (lastTerm lastIndex : Nat)
  | grant (term : Nat) (voter candidate : N)
  | append (term prev prevTerm : Nat) (entries : List E) (commit : Nat)
  | accept (term : Nat) (follower : N) (index : Nat)
  | refuse (term index : Nat)
  | heartbeat (term commit : Nat)

structure Replica (N E : Type) where
  term : Nat
  role : Role
  log : List E
  stored : List E
  commit : Nat
  matched : N → Nat

structure State (N E : Type) where
  replica : N → Replica N E
  issued : Set (Msg N E)
  /-- The terms that had a leader, and the log each of them wrote. -/
  elected : Set Nat
  leaderLog : Nat → List E
  /-- `(v, t, i)`: in term `t` replica `v` acknowledged the leader's log up to `i`. -/
  acked : Set (N × Nat × Nat)
  /-- `(v, i, e)`: replica `v` handed out `e` as its committed entry after `i` others. -/
  handed : Set (N × Nat × E)

def State.put [DecidableEq N] (s : State N E) (n : N) (x : Replica N E) : State N E :=
  { s with replica := Function.update s.replica n x }

@[simp] theorem State.put_self [DecidableEq N] (s : State N E) (n : N) (x : Replica N E) :
    (s.put n x).replica n = x := by
  simp [State.put]

theorem State.put_of_ne [DecidableEq N] (s : State N E) {n m : N} (h : m ≠ n) (x : Replica N E) :
    (s.put n x).replica m = s.replica m := by
  simp [State.put, h]

def State.issue (s : State N E) (m : Msg N E) : State N E :=
  { s with issued := insert m s.issued }

/-- A log with these last term and index is at least as up to date as `l`. -/
def UpToDate (τ : E → Nat) (lastTerm' lastIndex : Nat) (l : List E) : Prop :=
  lastTerm τ l < lastTerm' ∨ (lastTerm τ l = lastTerm' ∧ l.length ≤ lastIndex)

/-- How a follower's log may change when it accepts entries of `leaderLog` up to `last`. -/
structure Follows (τ : E → Nat) (strict : Prop) (leaderLog : List E) (last commit : Nat)
    (log stored log' : List E) : Prop where
  source : log' <+: log ∨ log' = stored ∨ log' = leaderLog.take last
  keeps : strict → ∀ {p}, p <+: log → p <+: leaderLog → p <+: log'
  /-- The acknowledged entries are there, unless the logs differ below the commit index. -/
  holds : strict → leaderLog.take last <+: log' ∨
    ∃ c, c ≤ commit ∧ c ≤ log.length ∧ c ≤ leaderLog.length ∧ termAt τ log c ≠ termAt τ leaderLog c

/-- The steps of replica `n`. -/
inductive Step [DecidableEq N] (τ : E → Nat) (members : Finset N) (strict : Prop) (n : N) :
    State N E → State N E → Prop
  | follow {s t} (ht : (s.replica n).term ≤ t) :
      Step τ members strict n s (s.put n { s.replica n with term := t, role := .follower })
  | campaign {s t} (ht : (s.replica n).term < t) :
      Step τ members strict n s (s.put n { s.replica n with term := t, role := .candidate })
  | request {s} (hr : (s.replica n).role = .candidate) :
      Step τ members strict n s (s.issue
        (.request (s.replica n).term n (lastTerm τ (s.replica n).log) (s.replica n).log.length))
  | grant {s c lt li} (hr : (s.replica n).role = .follower)
      (hm : .request (s.replica n).term c lt li ∈ s.issued)
      (hup : UpToDate τ lt li (s.replica n).log) :
      Step τ members strict n s (s.issue (.grant (s.replica n).term n c))
  | win {s Q} (hr : (s.replica n).role = .candidate) (hQ : Majority members Q)
      (hg : ∀ v ∈ Q, v = n ∨ .grant (s.replica n).term v n ∈ s.issued)
      (hnew : (s.replica n).term ∉ s.elected) :
      Step τ members strict n s
        { s.put n { s.replica n with role := .leader, matched := fun _ => 0 } with
          elected := insert (s.replica n).term s.elected
          leaderLog := Function.update s.leaderLog (s.replica n).term (s.replica n).log }
  | propose {s e} (hr : (s.replica n).role = .leader) (he : τ e = (s.replica n).term) :
      Step τ members strict n s
        { s.put n { s.replica n with log := (s.replica n).log ++ [e] } with
          leaderLog :=
            Function.update s.leaderLog (s.replica n).term ((s.replica n).log ++ [e]) }
  | sendAppend {s prev ents} (hr : (s.replica n).role = .leader)
      (hprev : prev ≤ (s.replica n).log.length) (hents : ents <+: (s.replica n).log.drop prev) :
      Step τ members strict n s (s.issue (.append (s.replica n).term prev
        (termAt τ (s.replica n).log prev) ents (s.replica n).commit))
  | sendHeartbeat {s} (hr : (s.replica n).role = .leader) :
      Step τ members strict n s (s.issue (.heartbeat (s.replica n).term (s.replica n).commit))
  | append {s prev pt ents lc log'} (hr : (s.replica n).role = .follower)
      (hm : .append (s.replica n).term prev pt ents lc ∈ s.issued)
      (hf : Follows τ strict (s.leaderLog (s.replica n).term) (prev + ents.length)
        (s.replica n).commit (s.replica n).log (s.replica n).stored log') :
      Step τ members strict n s
        { (s.put n { s.replica n with
            log := log'
            commit := if lc > (s.replica n).commit then min lc (prev + ents.length)
              else (s.replica n).commit }).issue
            (.accept (s.replica n).term n (prev + ents.length)) with
          acked := insert (n, (s.replica n).term, prev + ents.length) s.acked }
  | refuse {s i} (hi : i = 0 ∨ ∃ pt ents lc, .append (s.replica n).term i pt ents lc ∈ s.issued) :
      Step τ members strict n s (s.issue (.refuse (s.replica n).term i))
  | heartbeat {s k} (hr : (s.replica n).role = .follower)
      (hm : .heartbeat (s.replica n).term k ∈ s.issued) (hk : (s.replica n).commit < k)
      (hs : strict → (s.replica n).log.take (min k (s.replica n).log.length) <+:
        s.leaderLog (s.replica n).term) :
      Step τ members strict n s
        (s.put n { s.replica n with commit := min k (s.replica n).log.length })
  | ack {s v i} (hr : (s.replica n).role = .leader)
      (hm : .accept (s.replica n).term v i ∈ s.issued) :
      Step τ members strict n s (s.put n { s.replica n with
        matched := Function.update (s.replica n).matched v (max ((s.replica n).matched v) i) })
  | commit {s k Q} (hr : (s.replica n).role = .leader)
      (hk : termAt τ (s.replica n).log k = (s.replica n).term) (hQ : Majority members Q)
      (hm : ∀ v ∈ Q, v = n ∨ k ≤ (s.replica n).matched v) :
      Step τ members strict n s
        { s.put n { s.replica n with commit := k } with
          acked := insert (n, (s.replica n).term, k) s.acked }
  | handOut {s i e} (hi : i < (s.replica n).commit) (he : (s.replica n).log[i]? = some e) :
      Step τ members strict n s { s with handed := insert (n, i, e) s.handed }
  | persist {s k} :
      Step τ members strict n s (s.put n { s.replica n with stored := (s.replica n).log.take k })
  | restart {s t} (hs : ¬ strict) :
      Step τ members strict n s (s.put n { s.replica n with
        term := t, role := .follower, log := (s.replica n).stored, commit := 0 })

/-- A step of `n` leaves every other replica alone. -/
theorem Step.replica_of_ne [DecidableEq N] {members : Finset N} {strict : Prop} {n m : N}
    {s s' : State N E} (h : Step τ members strict n s s') (hm : m ≠ n) :
    s'.replica m = s.replica m := by
  cases h <;> first | rfl | exact s.put_of_ne hm _

/-! ## Log matching -/

/-- What an issued message says about the log of its term's leader. -/
def MsgOk (τ : E → Nat) (s : State N E) : Msg N E → Prop
  | .append t prev pt ents _ => t ∈ s.elected ∧ prev ≤ (s.leaderLog t).length ∧
      pt = termAt τ (s.leaderLog t) prev ∧ ents <+: (s.leaderLog t).drop prev
  | .heartbeat t _ => t ∈ s.elected
  | .accept t _ i => i ≤ (s.leaderLog t).length
  | .refuse t i => i ≤ (s.leaderLog t).length
  | _ => True

/-- The invariant of the general system: every log is rooted in the leaders' logs. -/
structure Matching (τ : E → Nat) (s : State N E) : Prop where
  log : ∀ n, Rooted τ s.leaderLog (s.replica n).log
  stored : ∀ n, Rooted τ s.leaderLog (s.replica n).stored
  leaderLog : ∀ t, Rooted τ s.leaderLog (s.leaderLog t)
  leads : ∀ {n}, (s.replica n).role = .leader →
    (s.replica n).log = s.leaderLog (s.replica n).term ∧ (s.replica n).term ∈ s.elected
  unique : ∀ {n m}, (s.replica n).role = .leader → (s.replica m).role = .leader →
    (s.replica n).term = (s.replica m).term → n = m
  unelected : ∀ {t}, t ∉ s.elected → s.leaderLog t = []
  candidate_pos : ∀ {n}, (s.replica n).role = .candidate → 1 ≤ (s.replica n).term
  elected_pos : ∀ {t}, t ∈ s.elected → 1 ≤ t
  issued : ∀ m ∈ s.issued, MsgOk τ s m
  handed : ∀ {v i e}, (v, i, e) ∈ s.handed → (s.leaderLog (τ e))[i]? = some e

/-- Messages stay justified while terms are elected and leaders' logs grow. -/
theorem MsgOk.mono {s s' : State N E} {m : Msg N E} (hle : ∀ t, s.leaderLog t <+: s'.leaderLog t)
    (hel : s.elected ⊆ s'.elected) (h : MsgOk τ s m) : MsgOk τ s' m := by
  cases m with
  | append t prev pt ents k =>
    obtain ⟨he, hp, ht, hents⟩ := h
    refine ⟨hel he, hp.trans (hle t).length_le, ?_, hents.trans ?_⟩
    · rw [ht]
      exact termAt_eq_of_isPrefix (hle t) hp
    · obtain ⟨r, hr⟩ := hle t
      rw [← hr, List.drop_append_of_le_length hp]
      exact List.prefix_append _ _
  | heartbeat t k => exact hel h
  | accept t v i => exact h.trans (hle t).length_le
  | refuse t i => exact h.trans (hle t).length_le
  | request => trivial
  | grant => trivial

section Matching

variable {members : Finset N} {strict : Prop} {s s' : State N E} {n : N}

/-- A property of every replica after a step that only `n` took part in. -/
theorem State.forall_replica {P : N → Replica N E → Prop}
    (hother : ∀ {m}, m ≠ n → s'.replica m = s.replica m) (hself : P n (s'.replica n))
    (hrest : ∀ m, P m (s.replica m)) (m : N) : P m (s'.replica m) := by
  by_cases hm : m = n
  · rw [hm]
    exact hself
  · rw [hother hm]
    exact hrest m

/-- Replacing one replica: its logs are rooted, and it leads only if it did before. -/
theorem Matching.put [DecidableEq N] (h : Matching τ s) {x : Replica N E} (hlog : Rooted τ s.leaderLog x.log)
    (hst : Rooted τ s.leaderLog x.stored)
    (hlead : x.role = .leader → (s.replica n).role = .leader ∧ (s.replica n).term = x.term ∧
      (s.replica n).log = x.log)
    (hcand : x.role = .candidate → 1 ≤ x.term) : Matching τ (s.put n x) := by
  have hself : (s.put n x).replica n = x := s.put_self n x
  have hne : ∀ {m}, m ≠ n → (s.put n x).replica m = s.replica m := fun hm => s.put_of_ne hm x
  -- a leader after the step led the same term with the same log before it
  have hback := State.forall_replica (P := fun m y => y.role = .leader →
    (s.replica m).role = .leader ∧ (s.replica m).term = y.term ∧ (s.replica m).log = y.log) hne
    (by rw [hself]; exact hlead) (fun _ hr => ⟨hr, rfl, rfl⟩)
  refine { h with log := ?_, stored := ?_, leads := ?_, unique := ?_, candidate_pos := ?_ }
  · refine State.forall_replica (P := fun _ y => Rooted τ s.leaderLog y.log) hne ?_ h.log
    rw [hself]
    exact hlog
  · refine State.forall_replica (P := fun _ y => Rooted τ s.leaderLog y.stored) hne ?_ h.stored
    rw [hself]
    exact hst
  · intro m hr
    obtain ⟨hr₀, ht, hl⟩ := hback m hr
    rw [← hl, ← ht]
    exact h.leads hr₀
  · intro m m' hr hr' ht
    obtain ⟨hr₀, ht₀, -⟩ := hback m hr
    obtain ⟨hr₁, ht₁, -⟩ := hback m' hr'
    exact h.unique hr₀ hr₁ (by rw [ht₀, ht₁, ht])
  · intro m
    refine State.forall_replica (P := fun _ y => y.role = .candidate → 1 ≤ y.term) hne ?_
      (fun _ => h.candidate_pos) m
    rw [hself]
    exact hcand

theorem Matching.issue (h : Matching τ s) {m : Msg N E} (hm : MsgOk τ s m) :
    Matching τ (s.issue m) where
  __ := h
  issued := by
    rintro m' (rfl | hm')
    · exact hm
    · exact h.issued m' hm'

variable [DecidableEq N]

/-- Replica `n` leads its term with a log that extends what the term's leader wrote so far. -/
theorem Matching.lead (h : Matching τ s) {x : Replica N E} (hr : x.role = .leader)
    (hpos : 1 ≤ x.term) (hgrow : s.leaderLog x.term <+: x.log)
    (hroot : Rooted τ (Function.update s.leaderLog x.term x.log) x.log)
    (hst : x.stored = (s.replica n).stored)
    (hother : ∀ {m}, m ≠ n → (s.replica m).role = .leader → (s.replica m).term ≠ x.term) :
    Matching τ { s.put n x with
      elected := insert x.term s.elected
      leaderLog := Function.update s.leaderLog x.term x.log } := by
  have hle : ∀ t, s.leaderLog t <+: Function.update s.leaderLog x.term x.log t := by
    intro t
    by_cases ht : t = x.term
    · rw [ht, Function.update_self]
      exact hgrow
    · rw [Function.update_of_ne ht]
  refine
    { log := ?_
      stored := ?_
      leaderLog := ?_
      leads := ?_
      unique := ?_
      unelected := ?_
      candidate_pos := ?_
      elected_pos := ?_
      issued := fun m hm => (h.issued m hm).mono hle (Set.subset_insert _ _)
      handed := ?_ }
  · intro m
    by_cases hm : m = n
    · subst hm
      simpa only [State.put, Function.update_self] using hroot
    · simpa only [State.put, Function.update_of_ne hm] using (h.log m).mono hle
  · intro m
    by_cases hm : m = n
    · subst hm
      simpa only [State.put, Function.update_self, hst] using (h.stored m).mono hle
    · simpa only [State.put, Function.update_of_ne hm] using (h.stored m).mono hle
  · intro t
    by_cases ht : t = x.term
    · simpa only [ht, Function.update_self] using hroot
    · simpa only [Function.update_of_ne ht] using (h.leaderLog t).mono hle
  · intro m hrm
    by_cases hm : m = n
    · subst hm
      simp only [State.put, Function.update_self]
      exact ⟨trivial, Set.mem_insert _ _⟩
    · simp only [State.put, Function.update_of_ne hm] at hrm ⊢
      rw [Function.update_of_ne (hother hm hrm)]
      exact ⟨(h.leads hrm).1, Set.mem_insert_of_mem _ (h.leads hrm).2⟩
  · intro m m' hrm hrm' ht
    by_cases hm : m = n <;> by_cases hm' : m' = n
    · rw [hm, hm']
    · subst hm
      simp only [State.put, Function.update_self, Function.update_of_ne hm'] at hrm' ht
      exact absurd ht.symm (hother hm' hrm')
    · subst hm'
      simp only [State.put, Function.update_self, Function.update_of_ne hm] at hrm ht
      exact absurd ht (hother hm hrm)
    · simp only [State.put, Function.update_of_ne hm, Function.update_of_ne hm'] at hrm hrm' ht
      exact h.unique hrm hrm' ht
  · intro t ht
    rw [Set.mem_insert_iff, not_or] at ht
    simp only [Function.update_of_ne ht.1]
    exact h.unelected ht.2
  · intro m hrm
    by_cases hm : m = n
    · subst hm
      simp only [State.put, Function.update_self, hr] at hrm
      cases hrm
    · simp only [State.put, Function.update_of_ne hm] at hrm ⊢
      exact h.candidate_pos hrm
  · rintro t (rfl | ht)
    · exact hpos
    · exact h.elected_pos ht
  · intro v i e hm
    exact getElem?_eq_some_of_isPrefix (hle _) (h.handed hm)

theorem Matching.win (h : Matching τ s) (hr : (s.replica n).role = .candidate)
    (hnew : (s.replica n).term ∉ s.elected) :
    Matching τ { s.put n { s.replica n with role := .leader, matched := fun _ => 0 } with
      elected := insert (s.replica n).term s.elected
      leaderLog := Function.update s.leaderLog (s.replica n).term (s.replica n).log } := by
  have hnil := h.unelected hnew
  refine h.lead (x := { s.replica n with role := .leader, matched := fun _ => 0 }) rfl
    (h.candidate_pos hr) ?_ ?_ rfl ?_
  · rw [hnil]
    exact List.nil_prefix
  · refine (h.log n).mono ?_
    intro t
    by_cases ht : t = (s.replica n).term
    · rw [ht, hnil]
      exact List.nil_prefix
    · rw [Function.update_of_ne ht]
  · intro m _ hm heq
    exact hnew (heq ▸ (h.leads hm).2)

theorem Matching.propose (h : Matching τ s) {e : E} (hr : (s.replica n).role = .leader)
    (he : τ e = (s.replica n).term) :
    Matching τ { s.put n { s.replica n with log := (s.replica n).log ++ [e] } with
      leaderLog := Function.update s.leaderLog (s.replica n).term ((s.replica n).log ++ [e]) } := by
  obtain ⟨hlog, hel⟩ := h.leads hr
  have hgrow : s.leaderLog (s.replica n).term <+: (s.replica n).log ++ [e] := by
    rw [← hlog]
    exact List.prefix_append _ _
  have key := h.lead (n := n) (x := { s.replica n with log := (s.replica n).log ++ [e] }) hr
    (h.elected_pos hel) hgrow ?_ rfl ?_
  · rwa [Set.insert_eq_of_mem hel] at key
  · refine Rooted.snoc ((h.log n).mono ?_) ?_
    · intro t
      by_cases ht : t = (s.replica n).term
      · rw [ht, Function.update_self]
        exact hgrow
      · rw [Function.update_of_ne ht]
    · rw [he, Function.update_self]
  · intro m hm hrm heq
    exact hm (h.unique hrm hr heq)

/-- **Log matching.** Every step keeps all logs rooted in the leaders' logs. -/
theorem Matching.step (h : Matching τ s) (hs : Step τ members strict n s s') : Matching τ s' := by
  cases hs with
  | follow ht =>
    exact h.put (h.log n) (h.stored n) (fun hr => nomatch hr) (fun hr => nomatch hr)
  | campaign ht =>
    exact h.put (h.log n) (h.stored n) (fun hr => nomatch hr) (fun _ => Nat.one_le_of_lt ht)
  | request hr => exact h.issue trivial
  | grant hr hm hup => exact h.issue trivial
  | win hr hQ hg hnew => exact h.win hr hnew
  | propose hr he => exact h.propose hr he
  | sendAppend hr hprev hents =>
    obtain ⟨hlog, hel⟩ := h.leads hr
    rw [hlog] at hprev hents
    refine h.issue ⟨hel, hprev, ?_, hents⟩
    rw [hlog]
  | sendHeartbeat hr => exact h.issue (h.leads hr).2
  | @append prev pt ents lc log' hr hm hf =>
    obtain ⟨hel, hprev, -, hents⟩ := h.issued _ hm
    have hlen : prev + ents.length ≤ (s.leaderLog (s.replica n).term).length := by
      have := hents.length_le
      rw [List.length_drop] at this
      omega
    have hroot : Rooted τ s.leaderLog log' := by
      rcases hf.source with hp | rfl | rfl
      · exact (h.log n).of_isPrefix hp
      · exact h.stored n
      · exact (h.leaderLog _).take _
    exact { (h.put (n := n) (x := { s.replica n with
        log := log'
        commit := if lc > (s.replica n).commit then min lc (prev + ents.length)
          else (s.replica n).commit }) hroot (h.stored n)
        (fun hl => absurd (hr.symm.trans hl) (by decide))
        (fun hc => absurd (hr.symm.trans hc) (by decide))).issue
          (m := .accept (s.replica n).term n (prev + ents.length)) hlen with }
  | refuse hi =>
    refine h.issue ?_
    rcases hi with rfl | ⟨pt, ents, lc, hm⟩
    · exact Nat.zero_le _
    · exact (h.issued _ hm).2.1
  | heartbeat hr hm hk hs =>
    exact h.put (h.log n) (h.stored n) (fun hl => ⟨hl, rfl, rfl⟩) (fun hc => h.candidate_pos hc)
  | ack hr hm =>
    exact h.put (h.log n) (h.stored n) (fun hl => ⟨hl, rfl, rfl⟩) (fun hc => h.candidate_pos hc)
  | @commit k Q hr hk hQ hm =>
    exact { h.put (n := n) (x := { s.replica n with commit := k }) (h.log n) (h.stored n)
      (fun hl => ⟨hl, rfl, rfl⟩) (fun hc => h.candidate_pos hc) with }
  | handOut hi he =>
    refine { h with handed := ?_ }
    intro v i e hm
    rcases hm with heq | hm
    · obtain ⟨-, rfl, rfl⟩ := Prod.mk.injEq .. ▸ heq
      exact (h.log n).getElem? he
    · exact h.handed hm
  | persist =>
    exact h.put (h.log n) ((h.log n).take _) (fun hl => ⟨hl, rfl, rfl⟩)
      (fun hc => h.candidate_pos hc)
  | restart hs =>
    exact h.put (h.stored n) (h.stored n) (fun hr => nomatch hr) (fun hr => nomatch hr)

/-- Nothing happened yet. -/
def State.initial (replica : N → Replica N E) : State N E :=
  { replica := replica, issued := ∅, elected := ∅, leaderLog := fun _ => [], acked := ∅,
    handed := ∅ }

omit [DecidableEq N] in
theorem Matching.initial {replica : N → Replica N E}
    (h : ∀ n, (replica n).log = [] ∧ (replica n).stored = [] ∧ (replica n).role = .follower) :
    Matching τ (State.initial replica) where
  log := fun n => by simpa only [State.initial, (h n).1] using rooted_nil
  stored := fun n => by simpa only [State.initial, (h n).2.1] using rooted_nil
  leaderLog := fun _ => rooted_nil
  leads := fun {n} hr => absurd ((h n).2.2.symm.trans hr) (by decide)
  unique := fun {n} _ hr => absurd ((h n).2.2.symm.trans hr) (by decide)
  unelected := fun _ => rfl
  candidate_pos := fun {n} hr => absurd ((h n).2.2.symm.trans hr) (by decide)
  elected_pos := fun ht => ht.elim
  issued := fun _ hm => hm.elim
  handed := fun hm => hm.elim

end Matching

end NexusLOB.Consensus.Replication
