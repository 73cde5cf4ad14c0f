import Mathlib.Data.Set.Insert
import Mathlib.Logic.Function.Basic
import NexusLOB.Consensus.Quorum

/-!
# Elections with durable ballots

Voters move through terms and vote at most for one candidate they keep. A voter's ballot, its
term and vote, lives in memory, in a draft that is being made durable, and in durable form;
messages are queued in memory, drafted together with the ballot of that moment, and sent only
once the drafted ballot is durable. A voter may lose its memory at any time and go on from the
durable ballot.

A candidate that yields forgets its vote without leaving the term, so a voter need not keep one
vote per term. What holds instead: a grant that still exists is kept by every copy of its voter's
ballot, and a voter that was a candidate cannot become one again in the same term. The ledger
`won` records who became leader of which term; it is a function of the term.
-/

namespace NexusLOB.Consensus

inductive Role
  | follower
  | candidate
  | leader
  deriving DecidableEq

namespace Election

variable {N : Type}

/-- A term and the vote cast in it. -/
structure Ballot (N : Type) where
  term : Nat
  vote : Option N

inductive Mail (N : Type)
  | request (term : Nat) (candidate : N)
  | grant (term : Nat) (voter candidate : N)

structure Voter (N : Type) where
  term : Nat
  vote : Option N
  role : Role
  votes : List N
  outbox : Set (Mail N)
  draft : Option (Ballot N × Set (Mail N))
  durable : Ballot N

/-- All voters, the mail that was sent, and the ledger of won terms. -/
structure State (N : Type) where
  voter : N → Voter N
  sent : Set (Mail N)
  won : Set (Nat × N)

/-- What voter `n` can do in memory, given the mail sent so far. -/
inductive Move (quorum : Nat) (sent : Set (Mail N)) (n : N) : Voter N → Voter N → Prop
  | adopt {x : Voter N} {t : Nat} (ht : x.term < t) :
      Move quorum sent n x { x with term := t, vote := none, role := .follower, votes := [] }
  | yield {x : Voter N} (hr : x.role = .candidate) :
      Move quorum sent n x { x with vote := none, role := .follower, votes := [] }
  | campaign {x : Voter N} :
      Move quorum sent n x
        { x with term := x.term + 1, vote := some n, role := .candidate, votes := [n] }
  | request {x : Voter N} (hr : x.role = .candidate) :
      Move quorum sent n x { x with outbox := insert (.request x.term n) x.outbox }
  | grant {x : Voter N} {c : N} (hr : x.role = .follower) (hreq : .request x.term c ∈ sent)
      (hv : x.vote = none ∨ x.vote = some c) :
      Move quorum sent n x
        { x with vote := some c, outbox := insert (.grant x.term n c) x.outbox }
  | count {x : Voter N} {v : N} (hr : x.role = .candidate) (hg : .grant x.term v n ∈ sent)
      (hv : v ∉ x.votes) :
      Move quorum sent n x { x with votes := x.votes ++ [v] }
  | win {x : Voter N} (hr : x.role = .candidate) (hq : quorum ≤ x.votes.length) :
      Move quorum sent n x { x with role := .leader }

/-- A voter that lost its memory. -/
def Voter.restarted (x : Voter N) : Voter N :=
  { x with
    term := x.durable.term
    vote := x.durable.vote
    role := .follower
    votes := []
    outbox := ∅
    draft := none }

/-- Replace voter `n` and enter it in the ledger if it leads. -/
def State.put [DecidableEq N] (s : State N) (n : N) (x : Voter N) : State N :=
  { s with
    voter := Function.update s.voter n x
    won := s.won ∪ { p | x.role = .leader ∧ p = (x.term, n) } }

/-- The steps of the system. Memory may only be lost where a majority needs a second member: a
lone voter elects itself before anything of its ballot is durable. -/
inductive Step [DecidableEq N] (members : List N) : State N → State N → Prop
  | move {s : State N} {n : N} {x : Voter N} (hn : n ∈ members)
      (hm : Move (members.length / 2 + 1) s.sent n (s.voter n) x) : Step members s (s.put n x)
  | poll {s : State N} {n : N} (hn : n ∈ members) (hd : (s.voter n).draft = none) :
      Step members s (s.put n { s.voter n with
        draft := some (⟨(s.voter n).term, (s.voter n).vote⟩, (s.voter n).outbox), outbox := ∅ })
  | persist {s : State N} {n : N} {b : Ballot N} {ms : Set (Mail N)} (hn : n ∈ members)
      (hd : (s.voter n).draft = some (b, ms)) :
      Step members s (s.put n { s.voter n with durable := b })
  | send {s : State N} {n : N} {b : Ballot N} {ms : Set (Mail N)} (hn : n ∈ members)
      (hd : (s.voter n).draft = some (b, ms)) (hb : b.term = 0 ∨ (s.voter n).durable = b) :
      Step members s { s with sent := s.sent ∪ ms }
  | finish {s : State N} {n : N} (hn : n ∈ members) :
      Step members s (s.put n { s.voter n with draft := none })
  | restart {s : State N} {n : N} (hn : n ∈ members) (hcard : 1 < members.length) :
      Step members s (s.put n (s.voter n).restarted)

/-! ## What every copy of a ballot keeps -/

/-- The ballot has left term `t` or still votes for `c` in it. -/
def Ballot.Keeps (b : Ballot N) (t : Nat) (c : N) : Prop :=
  t < b.term ∨ (b.term = t ∧ b.vote = some c)

/-- The voter has left term `t` or, as a follower, still votes for `c` in it. -/
def Voter.Keeps (x : Voter N) (t : Nat) (c : N) : Prop :=
  t < x.term ∨ (x.term = t ∧ x.vote = some c ∧ x.role = .follower)

/-- Voter `n`'s grant to `c` in term `t` is queued, drafted or sent. -/
def LiveGrant (sent : Set (Mail N)) (n : N) (x : Voter N) (t : Nat) (c : N) : Prop :=
  .grant t n c ∈ x.outbox ∨ (∃ b ms, x.draft = some (b, ms) ∧ .grant t n c ∈ ms) ∨
    .grant t n c ∈ sent

/-- The invariant of one voter, relative to the mail sent so far. -/
structure VoterOk (members : List N) (sent : Set (Mail N)) (n : N) (x : Voter N) : Prop where
  durable_le : x.durable.term ≤ x.term
  draft_le : ∀ {b ms}, x.draft = some (b, ms) → x.durable.term ≤ b.term ∧ b.term ≤ x.term
  outbox_grant : ∀ {t v c}, .grant t v c ∈ x.outbox → v = n
  draft_grant : ∀ {b ms t v c}, x.draft = some (b, ms) → .grant t v c ∈ ms →
    v = n ∧ b.Keeps t c
  sent_grant_draft : ∀ {t c b ms}, .grant t n c ∈ sent → x.draft = some (b, ms) → b.Keeps t c
  sent_grant_durable : ∀ {t c}, .grant t n c ∈ sent → x.durable.Keeps t c
  keeps : ∀ {t c}, LiveGrant sent n x t c → x.Keeps t c
  requested : ∀ {t c}, LiveGrant sent n x t c → .request t c ∈ sent
  unique : ∀ {t c c'}, LiveGrant sent n x t c → LiveGrant sent n x t c' → c = c'
  outbox_request : ∀ {t c}, .request t c ∈ x.outbox → c = n ∧ 1 ≤ t ∧ t ≤ x.term
  draft_request : ∀ {b ms t c}, x.draft = some (b, ms) → .request t c ∈ ms →
    c = n ∧ 1 ≤ t ∧ t ≤ b.term
  sent_request : ∀ {t}, .request t n ∈ sent → t ≤ x.durable.term
  self_vote : x.role ≠ .follower → x.vote = some n
  self_draft : ∀ {b ms}, x.role ≠ .follower → x.draft = some (b, ms) → b.term = x.term →
    b.vote = some n
  self_durable : x.role ≠ .follower → x.durable.term = x.term → x.durable.vote = some n
  term_pos : x.role = .candidate → 1 ≤ x.term
  votes : x.role = .candidate → x.votes.Nodup ∧
    ∀ v ∈ x.votes, v ∈ members ∧ (v = n ∨ .grant x.term v n ∈ sent)

section VoterOk

variable {members : List N} {sent : Set (Mail N)} {n : N} {x : Voter N}

theorem liveGrant_insert_request {r : Nat} {m : N} {t : Nat} {c : N} :
    LiveGrant sent n { x with outbox := insert (.request r m) x.outbox } t c ↔
      LiveGrant sent n x t c := by
  simp [LiveGrant]

theorem liveGrant_insert_grant {vote : Option N} {r : Nat} {d : N} {t : Nat} {c : N} :
    LiveGrant sent n { x with vote := vote, outbox := insert (.grant r n d) x.outbox } t c ↔
      (t = r ∧ c = d) ∨ LiveGrant sent n x t c := by
  simp only [LiveGrant, Set.mem_insert_iff, Mail.grant.injEq, true_and, or_assoc]

/-- A voter that is not a follower has no live grant in its own term. -/
theorem VoterOk.lt_of_not_follower (h : VoterOk members sent n x) (hr : x.role ≠ .follower)
    {t : Nat} {c : N} (hg : LiveGrant sent n x t c) : t < x.term := by
  rcases h.keeps hg with hlt | ⟨-, -, hf⟩
  · exact hlt
  · exact absurd hf hr

theorem VoterOk.adopt (h : VoterOk members sent n x) {t : Nat} (ht : x.term < t) :
    VoterOk members sent n { x with term := t, vote := none, role := .follower, votes := [] } where
  __ := h
  durable_le := h.durable_le.trans ht.le
  draft_le := fun hd => ⟨(h.draft_le hd).1, (h.draft_le hd).2.trans ht.le⟩
  keeps := by
    intro t' c hg
    refine Or.inl ?_
    rcases h.keeps hg with hlt | ⟨heq, -, -⟩
    · exact hlt.trans ht
    · exact heq ▸ ht
  outbox_request := fun hr =>
    ⟨(h.outbox_request hr).1, (h.outbox_request hr).2.1, (h.outbox_request hr).2.2.trans ht.le⟩
  self_vote := fun hr => absurd rfl hr
  self_draft := fun hr => absurd rfl hr
  self_durable := fun hr => absurd rfl hr
  term_pos := fun hr => nomatch hr
  votes := fun hr => nomatch hr

theorem VoterOk.yield (h : VoterOk members sent n x) (hr : x.role = .candidate) :
    VoterOk members sent n { x with vote := none, role := .follower, votes := [] } where
  __ := h
  keeps := fun hg => Or.inl (h.lt_of_not_follower (by rw [hr]; decide) hg)
  self_vote := fun hr => absurd rfl hr
  self_draft := fun hr => absurd rfl hr
  self_durable := fun hr => absurd rfl hr
  term_pos := fun hr => nomatch hr
  votes := fun hr => nomatch hr

theorem VoterOk.campaign (h : VoterOk members sent n x) (hn : n ∈ members) :
    VoterOk members sent n
      { x with term := x.term + 1, vote := some n, role := .candidate, votes := [n] } where
  __ := h
  durable_le := h.durable_le.trans (Nat.le_succ _)
  draft_le := fun hd => ⟨(h.draft_le hd).1, (h.draft_le hd).2.trans (Nat.le_succ _)⟩
  keeps := by
    intro t c hg
    refine Or.inl ?_
    rcases h.keeps hg with hlt | ⟨heq, -, -⟩
    · exact Nat.lt_succ_of_lt hlt
    · exact Nat.lt_succ_of_le heq.ge
  outbox_request := fun hr =>
    ⟨(h.outbox_request hr).1, (h.outbox_request hr).2.1,
      (h.outbox_request hr).2.2.trans (Nat.le_succ _)⟩
  self_vote := fun _ => rfl
  self_draft := by
    intro b ms _ hd heq
    exact absurd heq (Nat.ne_of_lt (Nat.lt_succ_of_le (h.draft_le hd).2))
  self_durable := fun _ heq => absurd heq (Nat.ne_of_lt (Nat.lt_succ_of_le h.durable_le))
  term_pos := fun _ => Nat.succ_pos _
  votes := fun _ => ⟨List.nodup_singleton n, fun v hv =>
    ⟨List.mem_singleton.mp hv ▸ hn, Or.inl (List.mem_singleton.mp hv)⟩⟩

theorem VoterOk.request (h : VoterOk members sent n x) (hr : x.role = .candidate) :
    VoterOk members sent n { x with outbox := insert (.request x.term n) x.outbox } where
  __ := h
  outbox_grant := by
    intro t v c hm
    rcases hm with heq | hm
    · cases heq
    · exact h.outbox_grant hm
  keeps := fun hg => h.keeps (liveGrant_insert_request.mp hg)
  requested := fun hg => h.requested (liveGrant_insert_request.mp hg)
  unique := fun hg hg' =>
    h.unique (liveGrant_insert_request.mp hg) (liveGrant_insert_request.mp hg')
  outbox_request := by
    intro t c hm
    rcases hm with heq | hm
    · cases heq
      exact ⟨rfl, h.term_pos hr, le_rfl⟩
    · exact h.outbox_request hm

theorem VoterOk.grant (h : VoterOk members sent n x) {c : N} (hr : x.role = .follower)
    (hreq : .request x.term c ∈ sent) (hv : x.vote = none ∨ x.vote = some c) :
    VoterOk members sent n
      { x with vote := some c, outbox := insert (.grant x.term n c) x.outbox } := by
  -- a live grant of the current term went to the same candidate
  have hsame : ∀ {c'}, LiveGrant sent n x x.term c' → c' = c := by
    intro c' hg
    rcases h.keeps hg with hlt | ⟨-, hvote, -⟩
    · exact absurd hlt (lt_irrefl _)
    · rcases hv with hnone | hsome
      · rw [hnone] at hvote
        cases hvote
      · rw [hsome] at hvote
        exact (Option.some.inj hvote).symm
  have hcases : ∀ {t c'}, LiveGrant sent n
      { x with vote := some c, outbox := insert (.grant x.term n c) x.outbox } t c' →
      (t = x.term → c' = c) ∧ .request t c' ∈ sent ∧
        (t < x.term ∨ t = x.term) ∧ (t ≠ x.term → LiveGrant sent n x t c') := by
    intro t c' hg
    rcases liveGrant_insert_grant.mp hg with ⟨rfl, rfl⟩ | hg
    · exact ⟨fun _ => rfl, hreq, Or.inr rfl, fun hne => absurd rfl hne⟩
    · refine ⟨fun heq => hsame (heq ▸ hg), h.requested hg, ?_, fun _ => hg⟩
      rcases h.keeps hg with hlt | ⟨heq, -, -⟩
      · exact Or.inl hlt
      · exact Or.inr heq.symm
  exact
    { h with
      outbox_grant := by
        intro t v c' hm
        rcases hm with heq | hm
        · cases heq
          rfl
        · exact h.outbox_grant hm
      keeps := by
        intro t c' hg
        obtain ⟨heq, -, hlt | ht, -⟩ := hcases hg
        · exact Or.inl hlt
        · exact Or.inr ⟨ht.symm, by rw [heq ht], hr⟩
      requested := fun hg => (hcases hg).2.1
      unique := by
        intro t c₁ c₂ h₁ h₂
        by_cases ht : t = x.term
        · rw [(hcases h₁).1 ht, (hcases h₂).1 ht]
        · exact h.unique ((hcases h₁).2.2.2 ht) ((hcases h₂).2.2.2 ht)
      outbox_request := by
        intro t c' hm
        rcases hm with heq | hm
        · cases heq
        · exact h.outbox_request hm
      self_vote := fun hne => absurd hr hne }

theorem VoterOk.count (h : VoterOk members sent n x) {v : N} (hr : x.role = .candidate)
    (hg : .grant x.term v n ∈ sent) (hm : v ∈ members) (hv : v ∉ x.votes) :
    VoterOk members sent n { x with votes := x.votes ++ [v] } where
  __ := h
  votes := by
    intro _
    obtain ⟨hnd, hvotes⟩ := h.votes hr
    refine ⟨List.nodup_append.mpr ⟨hnd, List.nodup_singleton v, ?_⟩, ?_⟩
    · intro a ha b hb hab
      rw [List.mem_singleton] at hb
      exact hv (hb ▸ hab ▸ ha)
    · intro u hu
      rcases List.mem_append.mp hu with hu | hu
      · exact hvotes u hu
      · rw [List.mem_singleton] at hu
        exact ⟨hu ▸ hm, Or.inr (hu ▸ hg)⟩

theorem VoterOk.win (h : VoterOk members sent n x) (hr : x.role = .candidate) :
    VoterOk members sent n { x with role := .leader } := by
  have hne : x.role ≠ .follower := by
    rw [hr]
    decide
  exact
    { h with
      keeps := fun hg => Or.inl (h.lt_of_not_follower hne hg)
      self_vote := fun _ => h.self_vote hne
      self_draft := fun _ => h.self_draft hne
      self_durable := fun _ => h.self_durable hne
      term_pos := fun hc => nomatch hc
      votes := fun hc => nomatch hc }

/-- Every move in memory keeps the invariant, given where sent grants come from. -/
theorem VoterOk.move {quorum : Nat} {y : Voter N} (h : VoterOk members sent n x)
    (hn : n ∈ members) (hsent : ∀ {t v c}, .grant t v c ∈ sent → v ∈ members)
    (hm : Move quorum sent n x y) : VoterOk members sent n y := by
  cases hm with
  | adopt ht => exact h.adopt ht
  | yield hr => exact h.yield hr
  | campaign => exact h.campaign hn
  | request hr => exact h.request hr
  | grant hr hreq hv => exact h.grant hr hreq hv
  | count hr hg hv => exact h.count hr hg (hsent hg) hv
  | win hr hq => exact h.win hr

theorem liveGrant_poll {b : Ballot N} (hd : x.draft = none) {t : Nat} {c : N} :
    LiveGrant sent n { x with draft := some (b, x.outbox), outbox := ∅ } t c ↔
      LiveGrant sent n x t c := by
  simp [LiveGrant, hd]

theorem VoterOk.poll (h : VoterOk members sent n x) (hd : x.draft = none) :
    VoterOk members sent n
      { x with draft := some (⟨x.term, x.vote⟩, x.outbox), outbox := ∅ } := by
  have hkeeps : ∀ {t c}, LiveGrant sent n x t c → Ballot.Keeps ⟨x.term, x.vote⟩ t c := by
    intro t c hg
    rcases h.keeps hg with hlt | ⟨heq, hv, -⟩
    · exact Or.inl hlt
    · exact Or.inr ⟨heq, hv⟩
  exact
    { h with
      draft_le := by
        intro b ms heq
        cases heq
        exact ⟨h.durable_le, le_rfl⟩
      outbox_grant := fun hm => hm.elim
      draft_grant := by
        intro b ms t v c heq hm
        cases heq
        have hv := h.outbox_grant hm
        subst hv
        exact ⟨rfl, hkeeps (Or.inl hm)⟩
      sent_grant_draft := by
        intro t c b ms hm heq
        cases heq
        exact hkeeps (Or.inr (Or.inr hm))
      keeps := fun hg => h.keeps ((liveGrant_poll hd).mp hg)
      requested := fun hg => h.requested ((liveGrant_poll hd).mp hg)
      unique := fun h₁ h₂ => h.unique ((liveGrant_poll hd).mp h₁) ((liveGrant_poll hd).mp h₂)
      outbox_request := fun hm => hm.elim
      draft_request := by
        intro b ms t c heq hm
        cases heq
        exact h.outbox_request hm
      self_draft := by
        intro b ms hr heq _
        cases heq
        exact h.self_vote hr }

theorem VoterOk.persist (h : VoterOk members sent n x) {b : Ballot N} {ms : Set (Mail N)}
    (hd : x.draft = some (b, ms)) : VoterOk members sent n { x with durable := b } where
  __ := h
  durable_le := (h.draft_le hd).2
  draft_le := by
    intro b' ms' hd'
    have heq := hd.symm.trans hd'
    cases heq
    exact ⟨le_rfl, (h.draft_le hd).2⟩
  sent_grant_durable := fun hm => h.sent_grant_draft hm hd
  sent_request := fun hm => (h.sent_request hm).trans (h.draft_le hd).1
  self_durable := fun hr => h.self_draft hr hd

theorem VoterOk.finish (h : VoterOk members sent n x) :
    VoterOk members sent n { x with draft := none } := by
  have hlive : ∀ {t c}, LiveGrant sent n { x with draft := none } t c → LiveGrant sent n x t c := by
    intro t c hg
    rcases hg with hg | ⟨b, ms, heq, -⟩ | hg
    · exact Or.inl hg
    · cases heq
    · exact Or.inr (Or.inr hg)
  exact
    { h with
      draft_le := fun heq => nomatch heq
      draft_grant := fun heq => nomatch heq
      sent_grant_draft := fun _ heq => nomatch heq
      keeps := fun hg => h.keeps (hlive hg)
      requested := fun hg => h.requested (hlive hg)
      unique := fun h₁ h₂ => h.unique (hlive h₁) (hlive h₂)
      draft_request := fun heq => nomatch heq
      self_draft := fun _ heq => nomatch heq }

theorem liveGrant_restarted {t : Nat} {c : N} :
    LiveGrant sent n x.restarted t c ↔ .grant t n c ∈ sent := by
  simp [LiveGrant, Voter.restarted]

theorem VoterOk.restarted (h : VoterOk members sent n x) :
    VoterOk members sent n x.restarted where
  durable_le := le_rfl
  draft_le := fun heq => nomatch heq
  outbox_grant := fun hm => hm.elim
  draft_grant := fun heq => nomatch heq
  sent_grant_draft := fun _ heq => nomatch heq
  sent_grant_durable := h.sent_grant_durable
  keeps := by
    intro t c hg
    rcases h.sent_grant_durable (liveGrant_restarted.mp hg) with hlt | ⟨heq, hv⟩
    · exact Or.inl hlt
    · exact Or.inr ⟨heq, hv, rfl⟩
  requested := fun hg => h.requested (Or.inr (Or.inr (liveGrant_restarted.mp hg)))
  unique := fun h₁ h₂ => h.unique (Or.inr (Or.inr (liveGrant_restarted.mp h₁)))
    (Or.inr (Or.inr (liveGrant_restarted.mp h₂)))
  outbox_request := fun hm => hm.elim
  draft_request := fun heq => nomatch heq
  sent_request := h.sent_request
  self_vote := fun hr => absurd rfl hr
  self_draft := fun hr => absurd rfl hr
  self_durable := fun hr => absurd rfl hr
  term_pos := fun hr => nomatch hr
  votes := fun hr => nomatch hr

/-- Sending the draft of voter `n` itself. -/
theorem VoterOk.send_self (h : VoterOk members sent n x) {b : Ballot N} {ms : Set (Mail N)}
    (hpos : ∀ {t c}, .request t c ∈ sent → 1 ≤ t) (hd : x.draft = some (b, ms))
    (hb : b.term = 0 ∨ x.durable = b) : VoterOk members (sent ∪ ms) n x := by
  have hlive : ∀ {t c}, LiveGrant (sent ∪ ms) n x t c → LiveGrant sent n x t c := by
    intro t c hg
    rcases hg with hg | hg | hg | hg
    · exact Or.inl hg
    · exact Or.inr (Or.inl hg)
    · exact Or.inr (Or.inr hg)
    · exact Or.inr (Or.inl ⟨b, ms, hd, hg⟩)
  exact
    { h with
      sent_grant_draft := by
        intro t c b' ms' hm hd'
        rcases hm with hm | hm
        · exact h.sent_grant_draft hm hd'
        · have heq := hd.symm.trans hd'
          cases heq
          exact (h.draft_grant hd hm).2
      sent_grant_durable := by
        intro t c hm
        rcases hm with hm | hm
        · exact h.sent_grant_durable hm
        · have hk := (h.draft_grant hd hm).2
          rcases hb with h0 | heq
          · have ht := hpos (h.requested (Or.inr (Or.inl ⟨b, ms, hd, hm⟩)))
            rcases hk with hlt | ⟨heq, -⟩ <;> omega
          · exact heq ▸ hk
      keeps := fun hg => h.keeps (hlive hg)
      requested := fun hg => Or.inl (h.requested (hlive hg))
      unique := fun h₁ h₂ => h.unique (hlive h₁) (hlive h₂)
      sent_request := by
        intro t hm
        rcases hm with hm | hm
        · exact h.sent_request hm
        · have ht := (h.draft_request hd hm).2.2
          rcases hb with h0 | heq
          · omega
          · exact heq ▸ ht
      votes := by
        intro hr
        refine ⟨(h.votes hr).1, fun v hv => ⟨((h.votes hr).2 v hv).1, ?_⟩⟩
        exact ((h.votes hr).2 v hv).2.imp id Or.inl }

/-- Sending mail that some other voter wrote. -/
theorem VoterOk.send_other (h : VoterOk members sent n x) {ms : Set (Mail N)}
    (hg : ∀ {t c}, .grant t n c ∉ ms) (hr : ∀ {t}, .request t n ∉ ms) :
    VoterOk members (sent ∪ ms) n x := by
  have hsent : ∀ {t c}, .grant t n c ∈ sent ∪ ms → .grant t n c ∈ sent := by
    intro t c hm
    rcases hm with hm | hm
    · exact hm
    · exact absurd hm hg
  have hlive : ∀ {t c}, LiveGrant (sent ∪ ms) n x t c → LiveGrant sent n x t c := by
    intro t c hl
    exact hl.imp id (Or.imp id hsent)
  exact
    { h with
      sent_grant_draft := fun hm => h.sent_grant_draft (hsent hm)
      sent_grant_durable := fun hm => h.sent_grant_durable (hsent hm)
      keeps := fun hl => h.keeps (hlive hl)
      requested := fun hl => Or.inl (h.requested (hlive hl))
      unique := fun h₁ h₂ => h.unique (hlive h₁) (hlive h₂)
      sent_request := by
        intro t hm
        rcases hm with hm | hm
        · exact h.sent_request hm
        · exact absurd hm hr
      votes := by
        intro hc
        refine ⟨(h.votes hc).1, fun v hv => ⟨((h.votes hc).2 v hv).1, ?_⟩⟩
        exact ((h.votes hc).2 v hv).2.imp id Or.inl }

end VoterOk

/-! ## The ledger of won terms -/

/-- What stays true of voter `n` after it won term `t`. -/
structure WonOk [DecidableEq N] (members : List N) (sent : Set (Mail N)) (t : Nat) (n : N)
    (x : Voter N) : Prop where
  le : t ≤ x.term
  settled : x.term = t → x.role ≠ .candidate ∧ x.vote = some n
  durable : 1 < members.length →
    t ≤ x.durable.term ∧ (x.durable.term = t → x.durable.vote = some n)
  draft : ∀ {b ms}, 1 < members.length → x.draft = some (b, ms) →
    t ≤ b.term ∧ (b.term = t → b.vote = some n)
  loyal : ∀ {c}, LiveGrant sent n x t c → c = n
  quorum : ∃ Q, Majority members.toFinset Q ∧ ∀ v ∈ Q, v = n ∨ .grant t v n ∈ sent

section WonOk

variable [DecidableEq N] {members : List N} {sent : Set (Mail N)} {t : Nat} {n : N} {x : Voter N}

theorem WonOk.move {quorum : Nat} {y : Voter N} (h : WonOk members sent t n x)
    (hm : Move quorum sent n x y) : WonOk members sent t n y := by
  cases hm with
  | adopt ht =>
    have hle := h.le
    exact { h with le := hle.trans ht.le, settled := fun heq => absurd (heq ▸ ht) (not_lt.mpr hle) }
  | yield hr => exact { h with settled := fun heq => absurd hr (h.settled heq).1 }
  | campaign =>
    have hle := h.le
    refine { h with le := hle.trans (Nat.le_succ _), settled := ?_ }
    intro heq
    have heq' : x.term + 1 = t := heq
    omega
  | request hr => exact { h with loyal := fun hg => h.loyal (liveGrant_insert_request.mp hg) }
  | @grant c hr hreq hv =>
    have hself : x.term = t → c = n := by
      intro heq
      rcases hv with hnone | hsome
      · rw [(h.settled heq).2] at hnone
        cases hnone
      · rw [(h.settled heq).2] at hsome
        exact (Option.some.inj hsome).symm
    refine { h with
      settled := fun heq => ⟨(h.settled heq).1, by rw [hself heq]⟩
      loyal := ?_ }
    intro c' hg
    rcases liveGrant_insert_grant.mp hg with ⟨ht, hc⟩ | hg
    · exact hc.trans (hself ht.symm)
    · exact h.loyal hg
  | count hr hg hv => exact { h with }
  | win hr hq => exact { h with settled := fun heq => absurd hr (h.settled heq).1 }

theorem WonOk.poll (h : WonOk members sent t n x) (hd : x.draft = none) :
    WonOk members sent t n
      { x with draft := some (⟨x.term, x.vote⟩, x.outbox), outbox := ∅ } where
  __ := h
  draft := by
    intro b ms hcard heq
    cases heq
    exact ⟨h.le, fun heq => (h.settled heq).2⟩
  loyal := fun hg => h.loyal ((liveGrant_poll hd).mp hg)

theorem WonOk.persist (h : WonOk members sent t n x) {b : Ballot N} {ms : Set (Mail N)}
    (hd : x.draft = some (b, ms)) : WonOk members sent t n { x with durable := b } where
  __ := h
  durable := fun hcard => h.draft hcard hd

theorem WonOk.finish (h : WonOk members sent t n x) :
    WonOk members sent t n { x with draft := none } where
  __ := h
  draft := fun _ heq => nomatch heq
  loyal := by
    intro c hg
    rcases hg with hg | ⟨b, ms, heq, -⟩ | hg
    · exact h.loyal (Or.inl hg)
    · cases heq
    · exact h.loyal (Or.inr (Or.inr hg))

theorem WonOk.restarted (h : WonOk members sent t n x) (hcard : 1 < members.length) :
    WonOk members sent t n x.restarted where
  le := (h.durable hcard).1
  settled := fun heq => ⟨by simp [Voter.restarted], (h.durable hcard).2 heq⟩
  durable := h.durable
  draft := fun _ heq => nomatch heq
  loyal := fun hg => h.loyal (Or.inr (Or.inr (liveGrant_restarted.mp hg)))
  quorum := h.quorum

/-- Mail that adds no live grant of `n` leaves the ledger entry of `n` alone. -/
theorem WonOk.send (h : WonOk members sent t n x) {ms : Set (Mail N)}
    (hlive : ∀ {c}, .grant t n c ∈ ms → LiveGrant sent n x t c) :
    WonOk members (sent ∪ ms) t n x where
  __ := h
  loyal := by
    intro c hg
    rcases hg with hg | hg | hg | hg
    · exact h.loyal (Or.inl hg)
    · exact h.loyal (Or.inr (Or.inl hg))
    · exact h.loyal (Or.inr (Or.inr hg))
    · exact h.loyal (hlive hg)
  quorum := by
    obtain ⟨Q, hQ, hv⟩ := h.quorum
    exact ⟨Q, hQ, fun v hm => (hv v hm).imp id Or.inl⟩

end WonOk

/-! ## Election safety -/

/-- The invariant of the whole system. -/
structure Inv [DecidableEq N] (members : List N) (s : State N) : Prop where
  nodup : members.Nodup
  voter : ∀ n, VoterOk members s.sent n (s.voter n)
  sent_grant : ∀ {t v c}, .grant t v c ∈ s.sent → v ∈ members
  sent_request : ∀ {t c}, .request t c ∈ s.sent → 1 ≤ t ∧ c ∈ members
  won : ∀ {t n}, (t, n) ∈ s.won → WonOk members s.sent t n (s.voter n)
  leads : ∀ {n}, (s.voter n).role = .leader → ((s.voter n).term, n) ∈ s.won
  unique : ∀ {t n m}, (t, n) ∈ s.won → (t, m) ∈ s.won → n = m

section Inv

variable [DecidableEq N] {members : List N} {s : State N} {n : N}

/-- The votes of a candidate that reached the quorum are a majority of grants. -/
theorem Inv.votes_majority (h : Inv members s) (hr : (s.voter n).role = .candidate)
    (hq : members.length / 2 + 1 ≤ (s.voter n).votes.length) :
    ∃ Q, Majority members.toFinset Q ∧
      ∀ v ∈ Q, v = n ∨ .grant (s.voter n).term v n ∈ s.sent := by
  obtain ⟨hnd, hvotes⟩ := (h.voter n).votes hr
  refine ⟨(s.voter n).votes.toFinset, ?_, ?_⟩
  · exact majority_of_nodup h.nodup hnd (fun v hv => (hvotes v hv).1) hq
  · intro v hv
    exact (hvotes v (List.mem_toFinset.mp hv)).2

/-- Nobody has won the term of a candidate that reaches the quorum. -/
theorem Inv.fresh (h : Inv members s) (hr : (s.voter n).role = .candidate)
    (hq : members.length / 2 + 1 ≤ (s.voter n).votes.length) (m : N) :
    ((s.voter n).term, m) ∉ s.won := by
  intro hm
  have hne : m ≠ n := by
    rintro rfl
    exact ((h.won hm).settled rfl).1 hr
  have hnf : (s.voter n).role ≠ .follower := by
    rw [hr]
    decide
  obtain ⟨Q, hQ, hQv⟩ := h.votes_majority hr hq
  obtain ⟨R, hR, hRv⟩ := (h.won hm).quorum
  -- the voter both majorities share would have to keep two candidates apart
  obtain ⟨v, hvQ, hvR⟩ := hQ.meet hR
  rcases hQv v hvQ with rfl | hgn <;> rcases hRv v hvR with rfl | hgm
  · exact hne rfl
  · exact lt_irrefl _ ((h.voter v).lt_of_not_follower hnf (Or.inr (Or.inr hgm)))
  · exact hne ((h.won hm).loyal (Or.inr (Or.inr hgn))).symm
  · exact hne ((h.voter v).unique (Or.inr (Or.inr hgm)) (Or.inr (Or.inr hgn)))

/-- A candidate that wins meets the ledger's conditions. -/
theorem Inv.wonOk_win (h : Inv members s) (hr : (s.voter n).role = .candidate)
    (hq : members.length / 2 + 1 ≤ (s.voter n).votes.length) :
    WonOk members s.sent (s.voter n).term n { s.voter n with role := .leader } := by
  have hnf : (s.voter n).role ≠ .follower := by
    rw [hr]
    decide
  obtain ⟨Q, hQ, hQv⟩ := h.votes_majority hr hq
  -- the vote of another member answers a request, sent with the ballot durable
  have hdur : 1 < members.length → (s.voter n).term ≤ (s.voter n).durable.term := by
    intro hcard
    obtain ⟨v, hv, hvn⟩ := hQ.exists_ne (by rwa [List.toFinset_card_of_nodup h.nodup]) n
    have hg := (hQv v hv).resolve_left hvn
    exact (h.voter n).sent_request ((h.voter v).requested (Or.inr (Or.inr hg)))
  exact
    { le := le_rfl
      settled := fun _ => ⟨by simp, (h.voter n).self_vote hnf⟩
      durable := fun hcard => ⟨hdur hcard, (h.voter n).self_durable hnf⟩
      draft := fun hcard hd =>
        ⟨(hdur hcard).trans ((h.voter n).draft_le hd).1, (h.voter n).self_draft hnf hd⟩
      loyal := fun hg => absurd ((h.voter n).lt_of_not_follower hnf hg) (lt_irrefl _)
      quorum := ⟨Q, hQ, hQv⟩ }

/-- Replacing one voter keeps the invariant when that voter's own conditions hold and a new
leader's term is won by nobody yet. -/
theorem Inv.put (h : Inv members s) {x : Voter N} (hx : VoterOk members s.sent n x)
    (hwon : ∀ {t}, (t, n) ∈ s.won → WonOk members s.sent t n x)
    (hlead : x.role = .leader → (x.term, n) ∈ s.won ∨
      (WonOk members s.sent x.term n x ∧ ∀ m, (x.term, m) ∉ s.won)) :
    Inv members (s.put n x) := by
  have hmem : ∀ {t m}, (t, m) ∈ (s.put n x).won →
      (t, m) ∈ s.won ∨ (x.role = .leader ∧ t = x.term ∧ m = n ∧ ∀ m, (x.term, m) ∉ s.won) := by
    rintro t m (hm | ⟨hr, heq⟩)
    · exact Or.inl hm
    · cases heq
      rcases hlead hr with hold | ⟨-, hnew⟩
      · exact Or.inl hold
      · exact Or.inr ⟨hr, rfl, rfl, hnew⟩
  refine
    { nodup := h.nodup
      voter := ?_
      sent_grant := h.sent_grant
      sent_request := h.sent_request
      won := ?_
      leads := ?_
      unique := ?_ }
  · intro m
    by_cases hmn : m = n
    · subst hmn
      simpa only [State.put, Function.update_self] using hx
    · simpa only [State.put, Function.update_of_ne hmn] using h.voter m
  · intro t m hm
    by_cases hmn : m = n
    · subst hmn
      simp only [State.put, Function.update_self]
      rcases hmem hm with hold | ⟨hr, rfl, -, hnew⟩
      · exact hwon hold
      · rcases hlead hr with hold | ⟨hok, -⟩
        · exact hwon hold
        · exact hok
    · simp only [State.put, Function.update_of_ne hmn]
      rcases hmem hm with hold | ⟨-, -, heq, -⟩
      · exact h.won hold
      · exact absurd heq hmn
  · intro m hr
    by_cases hmn : m = n
    · subst hmn
      simp only [State.put, Function.update_self] at hr ⊢
      exact Or.inr ⟨hr, rfl⟩
    · simp only [State.put, Function.update_of_ne hmn] at hr ⊢
      exact Or.inl (h.leads hr)
  · intro t m m' hm hm'
    rcases hmem hm with hold | ⟨-, ht, hmn, hnew⟩ <;>
      rcases hmem hm' with hold' | ⟨-, ht', hmn', hnew'⟩
    · exact h.unique hold hold'
    · exact absurd (ht' ▸ hold) (hnew' m)
    · exact absurd (ht ▸ hold') (hnew m')
    · exact hmn.trans hmn'.symm

theorem Inv.move (h : Inv members s) {x : Voter N} (hn : n ∈ members)
    (hm : Move (members.length / 2 + 1) s.sent n (s.voter n) x) : Inv members (s.put n x) := by
  refine h.put ((h.voter n).move hn h.sent_grant hm) (fun hw => (h.won hw).move hm) ?_
  intro hr
  cases hm with
  | adopt | yield | campaign => cases hr
  | request hc | count hc => exact absurd (hc.symm.trans hr) (by decide)
  | grant hf => exact absurd (hf.symm.trans hr) (by decide)
  | win hc hq => exact Or.inr ⟨h.wonOk_win hc hq, h.fresh hc hq⟩

/-- Every step keeps the invariant. -/
theorem Inv.step (h : Inv members s) {s' : State N} (hs : Step members s s') : Inv members s' := by
  cases hs with
  | move hn hm => exact h.move hn hm
  | poll hn hd =>
    exact h.put ((h.voter _).poll hd) (fun hw => (h.won hw).poll hd) (fun hr => Or.inl (h.leads hr))
  | persist hn hd =>
    exact h.put ((h.voter _).persist hd) (fun hw => (h.won hw).persist hd)
      (fun hr => Or.inl (h.leads hr))
  | finish hn =>
    exact h.put (h.voter _).finish (fun hw => (h.won hw).finish) (fun hr => Or.inl (h.leads hr))
  | restart hn hcard =>
    exact h.put (h.voter _).restarted (fun hw => (h.won hw).restarted hcard) (fun hr => nomatch hr)
  | @send n b ms hn hd hb =>
    refine
      { nodup := h.nodup
        voter := ?_
        sent_grant := ?_
        sent_request := ?_
        won := ?_
        leads := h.leads
        unique := h.unique }
    · intro m
      by_cases hmn : m = n
      · subst hmn
        exact (h.voter m).send_self (fun hr => (h.sent_request hr).1) hd hb
      · refine (h.voter m).send_other ?_ ?_
        · intro t c hm
          exact hmn ((h.voter n).draft_grant hd hm).1
        · intro t hm
          exact hmn ((h.voter n).draft_request hd hm).1
    · intro t v c hm
      rcases hm with hm | hm
      · exact h.sent_grant hm
      · exact ((h.voter n).draft_grant hd hm).1 ▸ hn
    · intro t c hm
      rcases hm with hm | hm
      · exact h.sent_request hm
      · obtain ⟨rfl, hpos, -⟩ := (h.voter n).draft_request hd hm
        exact ⟨hpos, hn⟩
    · intro t m hw
      refine (h.won hw).send ?_
      intro c hm
      have hmn : m = n := ((h.voter n).draft_grant hd hm).1
      subst hmn
      exact Or.inr (Or.inl ⟨b, ms, hd, hm⟩)

/-- The ledger does not change when the voter's role and term stay. -/
theorem Inv.won_put (h : Inv members s) {x : Voter N} (hr : x.role = (s.voter n).role)
    (ht : x.term = (s.voter n).term) : (s.put n x).won = s.won := by
  refine Set.union_eq_self_of_subset_right ?_
  rintro p ⟨hl, rfl⟩
  rw [hr] at hl
  rw [ht]
  exact h.leads hl

theorem won_put_of_ne {x : Voter N} (hr : x.role ≠ .leader) : (s.put n x).won = s.won := by
  refine Set.union_eq_self_of_subset_right ?_
  rintro p ⟨hl, -⟩
  exact absurd hl hr

/-- Voters that have done nothing yet, with nothing sent. -/
theorem Inv.init (hnd : members.Nodup) (hs : s.sent = ∅) (hw : s.won = ∅)
    (hv : ∀ n, (s.voter n).role = .follower ∧ (s.voter n).outbox = ∅ ∧ (s.voter n).draft = none ∧
      (s.voter n).durable.term ≤ (s.voter n).term) : Inv members s := by
  refine
    { nodup := hnd
      voter := ?_
      sent_grant := by simp [hs]
      sent_request := by simp [hs]
      won := by simp [hw]
      leads := ?_
      unique := by simp [hw] }
  · intro n
    obtain ⟨hr, ho, hd, hle⟩ := hv n
    constructor <;> simp [LiveGrant, hs, ho, hd, hr, hle]
  · intro n hr
    rw [(hv n).1] at hr
    cases hr

end Inv

end Election

end NexusLOB.Consensus
