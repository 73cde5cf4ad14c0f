import NexusLOB.Consensus.Replication

/-!
# Committed entries survive elections

In the strict system an acknowledgement lasts: whatever a replica acknowledged stays in its log as
long as the leaders it follows hold it too. A majority of votes therefore carries every
acknowledged entry that spread through all terms in between to the new leader, and by induction
over the terms an entry acknowledged by a majority in its own term is in the log of every later
leader. Entries handed out as committed agree for that reason.
-/

namespace NexusLOB.Consensus.Replication

variable {N E : Type} {τ : E → Nat}

/-! ## Growth of the history -/

/-- Terms are elected, leaders append entries of their own term, acknowledgements are added. -/
structure Grows (τ : E → Nat) (s s' : State N E) : Prop where
  elected : s.elected ⊆ s'.elected
  leaderLog : ∀ {t}, t ∈ s.elected →
    ∃ ext, s'.leaderLog t = s.leaderLog t ++ ext ∧ ∀ e ∈ ext, τ e = t
  acked : s.acked ⊆ s'.acked
  issued : s.issued ⊆ s'.issued

theorem Grows.refl (s : State N E) : Grows τ s s :=
  ⟨subset_rfl, fun _ => ⟨[], by simp⟩, subset_rfl, subset_rfl⟩

theorem Grows.trans {s₁ s₂ s₃ : State N E} (h : Grows τ s₁ s₂) (h' : Grows τ s₂ s₃) :
    Grows τ s₁ s₃ where
  elected := h.elected.trans h'.elected
  leaderLog := by
    intro t ht
    obtain ⟨ext, he, hext⟩ := h.leaderLog ht
    obtain ⟨ext', he', hext'⟩ := h'.leaderLog (h.elected ht)
    refine ⟨ext ++ ext', by rw [he', he, List.append_assoc], ?_⟩
    intro e hmem
    rcases List.mem_append.mp hmem with hmem | hmem
    · exact hext e hmem
    · exact hext' e hmem
  acked := h.acked.trans h'.acked
  issued := h.issued.trans h'.issued

/-- A step only adds to the history. -/
theorem Matching.grows [DecidableEq N] {members : Finset N} {strict : Prop} {s s' : State N E}
    {n : N} (h : Matching τ s) (hs : Step τ members strict n s s') : Grows τ s s' := by
  have hrefl : Grows τ s s := Grows.refl s
  cases hs with
  | win hr hQ hg hnew =>
    refine { hrefl with elected := Set.subset_insert _ _, leaderLog := ?_ }
    intro t ht
    refine ⟨[], ?_, by simp⟩
    have hne : t ≠ (s.replica n).term := by
      rintro rfl
      exact hnew ht
    simp [Function.update_of_ne hne]
  | @propose e hr he =>
    refine { hrefl with leaderLog := ?_ }
    intro t _
    by_cases ht : t = (s.replica n).term
    · subst ht
      refine ⟨[e], ?_, ?_⟩
      · rw [← (h.leads hr).1]
        simp
      · intro e' he'
        rw [List.mem_singleton.mp he', he]
    · exact ⟨[], by simp [Function.update_of_ne ht], by simp⟩
  | append hr hm hf =>
    exact { hrefl with acked := Set.subset_insert _ _, issued := Set.subset_insert _ _ }
  | commit hr hk hQ hm => exact { hrefl with acked := Set.subset_insert _ _ }
  | request | grant | sendAppend | sendHeartbeat | refuse =>
    exact { hrefl with issued := Set.subset_insert _ _ }
  | follow | campaign | heartbeat | ack | handOut | persist | restart => exact { hrefl with }

/-- The leader of term `t` wrote the entry at `i`. -/
structure Mark (τ : E → Nat) (s : State N E) (t i : Nat) : Prop where
  elected : t ∈ s.elected
  pos : t ≠ 0
  termAt_eq : termAt τ (s.leaderLog t) i = t

/-- The log of term `t`'s leader up to `i`. -/
def State.upTo (s : State N E) (t i : Nat) : List E := (s.leaderLog t).take i

section Growth

variable {s s' : State N E} {t t' i : Nat}

theorem Mark.le_length (h : Mark τ s t i) : i ≤ (s.leaderLog t).length :=
  le_length_of_termAt_ne_zero (by rw [h.termAt_eq]; exact h.pos)

theorem Mark.one_le (h : Mark τ s t i) : 1 ≤ i := by
  rcases Nat.eq_zero_or_pos i with rfl | hpos
  · exact absurd h.termAt_eq (by rw [termAt_zero]; exact h.pos.symm)
  · exact hpos

theorem Mark.length_upTo (h : Mark τ s t i) : (s.upTo t i).length = i := by
  rw [State.upTo, List.length_take, Nat.min_eq_left h.le_length]

theorem Grows.upTo_eq (h : Grows τ s s') (ht : t ∈ s.elected) (hi : i ≤ (s.leaderLog t).length) :
    s'.upTo t i = s.upTo t i := by
  obtain ⟨ext, he, -⟩ := h.leaderLog ht
  rw [State.upTo, he, List.take_append_of_le_length hi, State.upTo]

theorem Grows.leaderLog_isPrefix (h : Grows τ s s') (ht : t ∈ s.elected) :
    s.leaderLog t <+: s'.leaderLog t := by
  obtain ⟨ext, he, -⟩ := h.leaderLog ht
  exact ⟨ext, he.symm⟩

theorem Mark.grow (h : Mark τ s t i) (hg : Grows τ s s') : Mark τ s' t i where
  elected := hg.elected h.elected
  pos := h.pos
  termAt_eq := by
    rw [← termAt_eq_of_isPrefix (hg.leaderLog_isPrefix h.elected) h.le_length]
    exact h.termAt_eq

theorem Mark.back (h : Mark τ s' t i) (hg : Grows τ s s') (ht : t ∈ s.elected)
    (hi : i ≤ (s.leaderLog t).length) : Mark τ s t i where
  elected := ht
  pos := h.pos
  termAt_eq := by
    rw [termAt_eq_of_isPrefix (hg.leaderLog_isPrefix ht) hi]
    exact h.termAt_eq

/-- What a later leader holds of an earlier leader's own entries, it held when it was elected. -/
theorem Mark.prefix_earlier (h : Mark τ s' t i) (hg : Grows τ s s') (hlt : t < t')
    (ht' : t' ∈ s.elected) (hp : s'.upTo t i <+: s'.leaderLog t') :
    s'.upTo t i <+: s.leaderLog t' := by
  obtain ⟨ext, he, hext⟩ := hg.leaderLog ht'
  rw [he] at hp
  by_cases hlen : i ≤ (s.leaderLog t').length
  · exact isPrefix_of_isPrefix hp (List.prefix_append _ _) (by rw [h.length_upTo]; exact hlen)
  · -- the entry at `i` would be one of the later leader's own
    exfalso
    have hi : i ≤ (s.leaderLog t' ++ ext).length := by
      have := hp.length_le
      rwa [h.length_upTo] at this
    have hterm : termAt τ (s.leaderLog t' ++ ext) i = t := by
      rw [← termAt_eq_of_isPrefix hp (by rw [h.length_upTo]), State.upTo, termAt_take le_rfl]
      exact h.termAt_eq
    obtain ⟨j, rfl⟩ : ∃ j, i = (s.leaderLog t').length + j := ⟨i - (s.leaderLog t').length, by omega⟩
    rw [List.length_append] at hi
    rw [termAt_append_right (by omega)] at hterm
    obtain ⟨e, he, hte⟩ := exists_mem_termAt τ (l := ext) (i := j) (by omega) (by omega)
    rw [hte, hext e he] at hterm
    omega

theorem Mark.prefix_back (h : Mark τ s t i) (hg : Grows τ s s') (hlt : t < t')
    (ht' : t' ∈ s.elected) (hp : s'.upTo t i <+: s'.leaderLog t') : s.upTo t i <+: s.leaderLog t' := by
  rw [← hg.upTo_eq h.elected h.le_length]
  exact (h.grow hg).prefix_earlier hg hlt ht' hp

/-- The leaders of all terms between `t` and `t'` hold the log of `t`'s leader up to `i`. -/
def Spread (s : State N E) (t i t' : Nat) : Prop :=
  ∀ u, t < u → u < t' → u ∈ s.elected → s.upTo t i <+: s.leaderLog u

theorem Spread.back (h : Spread s' t i t') (hm : Mark τ s t i) (hg : Grows τ s s') :
    Spread s t i t' := fun u h1 h2 hu => hm.prefix_back hg h1 hu (h u h1 h2 (hg.elected hu))

theorem Spread.mono {t'' : Nat} (h : Spread s t i t'') (hle : t' ≤ t'') : Spread s t i t' :=
  fun u h1 h2 hu => h u h1 (by omega) hu

end Growth

/-! ## Acknowledged entries -/

/-- The log `l` has all that `v` acknowledged in terms before `t'` and that spread up to `t'`. -/
def Carries (τ : E → Nat) (s : State N E) (v : N) (t' : Nat) (l : List E) : Prop :=
  ∀ t i j, (v, t, j) ∈ s.acked → t < t' → i ≤ j → Mark τ s t i → Spread s t i t' →
    s.upTo t i <+: l

section Carries

variable {s s' : State N E} {v : N} {t t' : Nat} {l l' : List E}

theorem Carries.mono (h : Carries τ s v t l) (hl : l <+: l') : Carries τ s v t l' :=
  fun u i j ha hu hi hm hs => (h u i j ha hu hi hm hs).trans hl

/-- Acknowledgements known before the step carry over; new ones must not be below the term. -/
theorem Carries.grow (h : Carries τ s v t l) (hg : Grows τ s s')
    (hok : ∀ {u j}, (v, u, j) ∈ s.acked → u ∈ s.elected ∧ j ≤ (s.leaderLog u).length)
    (hold : ∀ {u j}, (v, u, j) ∈ s'.acked → u < t → (v, u, j) ∈ s.acked) :
    Carries τ s' v t l := by
  intro u i j ha hu hi hm hs
  have ha' := hold ha hu
  obtain ⟨hel, hj⟩ := hok ha'
  have hm' := hm.back hg hel (hi.trans hj)
  rw [hg.upTo_eq hel (hi.trans hj)]
  exact h u i j ha' hu hi hm' (hs.back hm' hg)

theorem Carries.raise (h : Carries τ s v t l) (hle : t ≤ t')
    (hlt : ∀ {u j}, (v, u, j) ∈ s.acked → u < t) : Carries τ s v t' l :=
  fun u i j ha _ hi hm hs => h u i j ha (hlt ha) hi hm (hs.mono hle)

/-- A term without a leader adds nothing to what must have spread. -/
theorem Carries.lower (h : Carries τ s v (t + 1) l) (hel : t ∉ s.elected) : Carries τ s v t l := by
  intro u i j ha hu hi hm hs
  refine h u i j ha (by omega) hi hm ?_
  intro w h1 h2 hw
  refine hs w h1 ?_ hw
  have hne : w ≠ t := by
    rintro rfl
    exact hel hw
  omega

end Carries

/-- A majority acknowledged the log of term `t`'s leader up to its own entry at `i`. -/
structure Committed (τ : E → Nat) (members : Finset N) (s : State N E) (t i : Nat) : Prop where
  mark : Mark τ s t i
  quorum : ∃ Q, Majority members Q ∧ ∀ v ∈ Q, ∃ j, i ≤ j ∧ (v, t, j) ∈ s.acked

/-- Index `k` is committed as far as a node of term `t` may know. -/
def CommitOk (τ : E → Nat) (members : Finset N) (s : State N E) (t k : Nat) : Prop :=
  k = 0 ∨ ∃ u i, Committed τ members s u i ∧ u ≤ t ∧ k ≤ i

section Committed

variable {members : Finset N} {s s' : State N E} {t i k : Nat}

theorem Committed.grow (h : Committed τ members s t i) (hg : Grows τ s s') :
    Committed τ members s' t i where
  mark := h.mark.grow hg
  quorum := by
    obtain ⟨Q, hQ, hv⟩ := h.quorum
    refine ⟨Q, hQ, fun v hm => ?_⟩
    obtain ⟨j, hj, ha⟩ := hv v hm
    exact ⟨j, hj, hg.acked ha⟩

theorem CommitOk.grow (h : CommitOk τ members s t k) (hg : Grows τ s s') :
    CommitOk τ members s' t k := by
  rcases h with h0 | ⟨u, i, hc, hu, hk⟩
  · exact Or.inl h0
  · exact Or.inr ⟨u, i, hc.grow hg, hu, hk⟩

end Committed

/-! ## The invariant of the strict system -/

/-- What an issued message says about votes, acknowledgements and commits. -/
def MsgKept (τ : E → Nat) (members : Finset N) (s : State N E) : Msg N E → Prop
  | .request t c lt li => t ≤ (s.replica c).term ∧
      ((s.replica c).role = .candidate → (s.replica c).term = t →
        lt = lastTerm τ (s.replica c).log ∧ li = (s.replica c).log.length)
  | .grant t v c => t ≤ (s.replica v).term ∧ t ≤ (s.replica c).term ∧
      ((s.replica c).role = .candidate → (s.replica c).term = t → t ∉ s.elected →
        Carries τ s v t (s.replica c).log)
  | .append t _ _ _ k => CommitOk τ members s t k
  | .heartbeat t k => CommitOk τ members s t k
  | .accept t v j => (v, t, j) ∈ s.acked
  | .refuse _ _ => True

/-- The commit index of a replica covers entries of its log that a majority acknowledged. -/
def CommitKept (τ : E → Nat) (members : Finset N) (s : State N E) (x : Replica N E) : Prop :=
  x.commit = 0 ∨ ∃ t i, Committed τ members s t i ∧ t ≤ x.term ∧ x.commit ≤ i ∧
    s.upTo t x.commit <+: x.log

structure Complete (τ : E → Nat) (members : Finset N) (s : State N E) : Prop where
  log_le : ∀ {n e}, e ∈ (s.replica n).log → τ e ≤ (s.replica n).term
  stored_le : ∀ {n e}, e ∈ (s.replica n).stored → τ e ≤ (s.replica n).term
  leaderLog_le : ∀ {t e}, e ∈ s.leaderLog t → τ e ≤ t
  acked : ∀ {v t j}, (v, t, j) ∈ s.acked →
    t ∈ s.elected ∧ j ≤ (s.leaderLog t).length ∧ t ≤ (s.replica v).term
  carries : ∀ v, Carries τ s v ((s.replica v).term + 1) (s.replica v).log
  matched : ∀ {n v}, (s.replica n).role = .leader → 0 < (s.replica n).matched v →
    ∃ j, (s.replica n).matched v ≤ j ∧ (v, (s.replica n).term, j) ∈ s.acked
  issued : ∀ {m}, m ∈ s.issued → MsgKept τ members s m
  elected : ∀ {t}, t ∈ s.elected → ∃ Q, Majority members Q ∧
    ∀ v ∈ Q, t ≤ (s.replica v).term ∧ Carries τ s v t (s.leaderLog t)
  commit : ∀ v, CommitKept τ members s (s.replica v)
  handed : ∀ {v i e}, (v, i, e) ∈ s.handed →
    ∃ t k, Committed τ members s t k ∧ i < k ∧ (s.leaderLog t)[i]? = some e

section Complete

variable {members : Finset N} {s s' : State N E} {n : N}

/-- **Leader completeness.** Every later leader has what a majority acknowledged. -/
theorem Complete.leader_complete [DecidableEq N] (h : Complete τ members s) {t i : Nat}
    (hc : Committed τ members s t i) {t' : Nat} (hlt : t < t') (hel : t' ∈ s.elected) :
    s.upTo t i <+: s.leaderLog t' := by
  induction t' using Nat.strong_induction_on with
  | _ t' ih =>
    obtain ⟨Q, hQ, hack⟩ := hc.quorum
    obtain ⟨R, hR, hcar⟩ := h.elected hel
    obtain ⟨v, hvQ, hvR⟩ := hQ.meet hR
    obtain ⟨j, hj, ha⟩ := hack v hvQ
    exact (hcar v hvR).2 t i j ha hlt hj hc.mark (fun u h1 h2 hu => ih u h2 h1 hu)

theorem Complete.upTo_isPrefix [DecidableEq N] (h : Complete τ members s) {t i t' : Nat}
    (hc : Committed τ members s t i) (hle : t ≤ t') (hel : t' ∈ s.elected) :
    s.upTo t i <+: s.leaderLog t' := by
  rcases Nat.lt_or_eq_of_le hle with hlt | rfl
  · exact h.leader_complete hc hlt hel
  · exact List.take_prefix _ _

/-- Two committed prefixes are comparable. -/
theorem Complete.committed_agree [DecidableEq N] (h : Complete τ members s) {t i t' i' : Nat}
    (hc : Committed τ members s t i) (hc' : Committed τ members s t' i') {k : Nat} (hk : k < i)
    (hk' : k < i') : (s.leaderLog t)[k]? = (s.leaderLog t')[k]? := by
  have key : ∀ {t i t'}, Committed τ members s t i → t' ∈ s.elected → t ≤ t' → k < i →
      (s.leaderLog t)[k]? = (s.leaderLog t')[k]? := by
    intro t i t' hc hel hle hk
    have hp := h.upTo_isPrefix hc hle hel
    rw [← getElem?_eq_of_isPrefix hp (by rw [hc.mark.length_upTo]; exact hk), State.upTo,
      List.getElem?_take, if_pos hk]
  rcases Nat.le_total t t' with hle | hle
  · exact key hc hc'.mark.elected hle hk
  · exact (key hc' hc.mark.elected hle hk').symm

/-- The votes of a candidate whose log is at least as up to date carry over to it. -/
theorem Complete.carries_of_upToDate (h : Complete τ members s) (hM : Matching τ s) {v c : N}
    {t lt li : Nat} (hv : (s.replica v).term = t) (hc : (s.replica c).term = t)
    (hel : t ∉ s.elected) (hlt : lt = lastTerm τ (s.replica c).log)
    (hli : li = (s.replica c).log.length) (hup : UpToDate τ lt li (s.replica v).log) :
    Carries τ s v t (s.replica c).log := by
  have hcar : Carries τ s v t (s.replica v).log := by
    have := h.carries v
    rw [hv] at this
    exact this.lower hel
  intro u i j ha hu hi hm hs
  have hp := hcar u i j ha hu hi hm hs
  have hlenv : i ≤ (s.replica v).log.length := by
    have := hp.length_le
    rwa [hm.length_upTo] at this
  -- the voter's last term is at least the term of the entry it acknowledged
  have hlast : u ≤ lastTerm τ (s.replica v).log := by
    have hmono := (hM.log v).termAt_mono (fun t e he => h.leaderLog_le he) hlenv le_rfl
    rw [← termAt_eq_of_isPrefix hp (by rw [hm.length_upTo]), State.upTo, termAt_take le_rfl,
      hm.termAt_eq] at hmono
    exact hmono
  have hle : u ≤ lastTerm τ (s.replica c).log := by
    rcases hup with hgt | ⟨heq, -⟩ <;> omega
  have hne : (s.replica c).log ≠ [] := by
    intro hnil
    rw [hnil] at hle
    exact hm.pos (Nat.le_zero.mp hle)
  have hroot := (hM.log c).prefix_lastTerm hne
  rcases Nat.lt_or_eq_of_le hle with hgt | heq
  · -- a later leader wrote the candidate's last entry, and holds the acknowledged ones
    have helw : lastTerm τ (s.replica c).log ∈ s.elected := by
      by_contra hnot
      rw [hM.unelected hnot, List.prefix_nil] at hroot
      exact hne hroot
    have hlew : lastTerm τ (s.replica c).log ≤ t := by
      obtain ⟨e, he, hte⟩ := exists_mem_termAt τ (l := (s.replica c).log)
        (List.length_pos_iff.mpr hne) le_rfl
      rw [lastTerm, hte, ← hc]
      exact h.log_le he
    have hltw : lastTerm τ (s.replica c).log < t := by
      rcases Nat.lt_or_eq_of_le hlew with hlt | heq
      · exact hlt
      · exact absurd (heq ▸ helw) hel
    have hpw := hs _ hgt hltw helw
    by_cases hlen : i ≤ (s.replica c).log.length
    · exact isPrefix_of_isPrefix hpw hroot (by rw [hm.length_upTo]; exact hlen)
    · exfalso
      have hlen' : (s.replica c).log.length ≤ (s.upTo u i).length := by
        rw [hm.length_upTo]
        omega
      have hpre := isPrefix_of_isPrefix hroot hpw hlen'
      obtain ⟨e, he, hte⟩ := exists_mem_termAt τ (l := (s.replica c).log)
        (List.length_pos_iff.mpr hne) le_rfl
      have hmem : e ∈ s.leaderLog u := (List.take_subset _ _) (hpre.subset he)
      have := h.leaderLog_le hmem
      rw [lastTerm, hte] at hgt
      omega
  · -- the same leader wrote both last entries, and the candidate's log is no shorter
    rw [← heq] at hroot
    have hlen : i ≤ (s.replica c).log.length := by
      rcases hup with hgt | ⟨-, hle'⟩
      · omega
      · omega
    refine isPrefix_of_isPrefix (List.take_prefix _ _) hroot ?_
    exact (hm.length_upTo).le.trans hlen

/-- The commit index of a replica whose log keeps the committed part. -/
theorem CommitKept.grow {x y : Replica N E} (h : CommitKept τ members s x) (hg : Grows τ s s')
    (hc : y.commit = x.commit) (ht : x.term ≤ y.term)
    (hl : ∀ {t i}, Committed τ members s t i → t ≤ x.term → x.commit ≤ i →
      s.upTo t x.commit <+: x.log → s.upTo t x.commit <+: y.log) :
    CommitKept τ members s' y := by
  unfold CommitKept
  rw [hc]
  rcases h with h0 | ⟨t, i, hcom, htt, hi, hp⟩
  · exact Or.inl h0
  · refine Or.inr ⟨t, i, hcom.grow hg, htt.trans ht, hi, ?_⟩
    rw [hg.upTo_eq hcom.mark.elected (hi.trans hcom.mark.le_length)]
    exact hl hcom htt hi hp

/-- What a message says stays true: terms do not fall, a candidate of the message's term was one
before with the same log, and what a voter carries it goes on carrying. -/
theorem MsgKept.grow {m : Msg N E} (hk : MsgKept τ members s m) (hg : Grows τ s s')
    (hmono : ∀ v, (s.replica v).term ≤ (s'.replica v).term)
    (hback : ∀ {c t}, t ≤ (s.replica c).term → (s'.replica c).role = .candidate →
      (s'.replica c).term = t → (s.replica c).role = .candidate ∧ (s.replica c).term = t ∧
        (s'.replica c).log = (s.replica c).log)
    (hgrow : ∀ {v t l}, Carries τ s v t l → t ≤ (s.replica v).term → Carries τ s' v t l) :
    MsgKept τ members s' m := by
  cases m with
  | request t c lt li =>
    refine ⟨hk.1.trans (hmono c), ?_⟩
    intro hr ht
    obtain ⟨hr', ht', hl⟩ := hback hk.1 hr ht
    rw [hl]
    exact hk.2 hr' ht'
  | grant t v c =>
    refine ⟨hk.1.trans (hmono v), hk.2.1.trans (hmono c), ?_⟩
    intro hr ht hel
    obtain ⟨hr', ht', hl⟩ := hback hk.2.1 hr ht
    rw [hl]
    exact hgrow (hk.2.2 hr' ht' (fun hin => hel (hg.elected hin))) hk.1
  | append t prev pt ents k => exact CommitOk.grow hk hg
  | heartbeat t k => exact CommitOk.grow hk hg
  | accept t v j => exact hg.acked hk
  | refuse => trivial

/-- What a step of replica `n` must do to keep the invariant, besides growing the history. -/
theorem Complete.update [DecidableEq N] (h : Complete τ members s) (hg : Grows τ s s')
    {x : Replica N E} (hself : s'.replica n = x)
    (hother : ∀ {m}, m ≠ n → s'.replica m = s.replica m)
    (hterm : (s.replica n).term ≤ x.term)
    (hlog : ∀ {e}, e ∈ x.log → τ e ≤ x.term)
    (hstored : ∀ {e}, e ∈ x.stored → τ e ≤ x.term)
    (hleader : ∀ {t e}, e ∈ s'.leaderLog t → τ e ≤ t)
    (hacked : ∀ {v t j}, (v, t, j) ∈ s'.acked → (v, t, j) ∈ s.acked ∨
      (v = n ∧ t = (s.replica n).term ∧ t ∈ s.elected ∧ j ≤ (s.leaderLog t).length))
    (hcarries : Carries τ s' n (x.term + 1) x.log)
    (hmatched : ∀ {v}, x.role = .leader → 0 < x.matched v →
      ∃ j, x.matched v ≤ j ∧ (v, x.term, j) ∈ s'.acked)
    (hcand : x.role = .candidate → (s.replica n).term < x.term ∨
      ((s.replica n).role = .candidate ∧ x.log = (s.replica n).log))
    (hissued : ∀ {m}, m ∈ s'.issued → m ∈ s.issued ∨ MsgKept τ members s' m)
    (helected : ∀ {t}, t ∈ s'.elected → t ∉ s.elected → ∃ Q, Majority members Q ∧
      ∀ v ∈ Q, t ≤ (s'.replica v).term ∧ Carries τ s' v t (s'.leaderLog t))
    (hcommit : CommitKept τ members s' x)
    (hhanded : ∀ {v i e}, (v, i, e) ∈ s'.handed → (v, i, e) ∈ s.handed ∨
      ∃ t k, Committed τ members s' t k ∧ i < k ∧ (s'.leaderLog t)[i]? = some e) :
    Complete τ members s' := by
  subst hself
  have hmono : ∀ m, (s.replica m).term ≤ (s'.replica m).term :=
    State.forall_replica (P := fun m y => (s.replica m).term ≤ y.term) hother hterm fun _ => le_rfl
  have hok : ∀ {v u j}, (v, u, j) ∈ s.acked → u ∈ s.elected ∧ j ≤ (s.leaderLog u).length :=
    fun ha => ⟨(h.acked ha).1, (h.acked ha).2.1⟩
  -- new acknowledgements are of the acting replica's own term
  have hgrow : ∀ {v t l}, Carries τ s v t l → t ≤ (s.replica v).term → Carries τ s' v t l := by
    intro v t l hcar ht
    refine hcar.grow hg hok ?_
    intro u j ha hu
    rcases hacked ha with hold | ⟨rfl, rfl, -, -⟩
    · exact hold
    · omega
  -- a candidate after the step was one before, with the same log
  have hback : ∀ {c t}, t ≤ (s.replica c).term → (s'.replica c).role = .candidate →
      (s'.replica c).term = t → (s.replica c).role = .candidate ∧ (s.replica c).term = t ∧
        (s'.replica c).log = (s.replica c).log := by
    intro c t hle hr ht
    by_cases hc : c = n
    · subst hc
      rcases hcand hr with hlt | ⟨hr', hl⟩
      · omega
      · exact ⟨hr', by omega, hl⟩
    · rw [hother hc] at hr ht ⊢
      exact ⟨hr, ht, rfl⟩
  refine
    { log_le := ?_
      stored_le := ?_
      leaderLog_le := hleader
      acked := ?_
      carries := ?_
      matched := ?_
      issued := ?_
      elected := ?_
      commit := ?_
      handed := ?_ }
  · intro m e
    exact State.forall_replica (P := fun _ y => e ∈ y.log → τ e ≤ y.term) hother hlog
      (fun _ => h.log_le) m
  · intro m e
    exact State.forall_replica (P := fun _ y => e ∈ y.stored → τ e ≤ y.term) hother hstored
      (fun _ => h.stored_le) m
  · intro v t j ha
    rcases hacked ha with hold | ⟨rfl, rfl, hel, hj⟩
    · obtain ⟨hel, hj, ht⟩ := h.acked hold
      exact ⟨hg.elected hel, hj.trans (hg.leaderLog_isPrefix hel).length_le, ht.trans (hmono v)⟩
    · exact ⟨hg.elected hel, hj.trans (hg.leaderLog_isPrefix hel).length_le, hterm⟩
  · intro m
    by_cases hm : m = n
    · subst hm
      exact hcarries
    · rw [hother hm]
      refine (h.carries m).grow hg hok ?_
      intro u j ha _
      rcases hacked ha with hold | ⟨heq, -, -, -⟩
      · exact hold
      · exact absurd heq hm
  · intro m v
    refine State.forall_replica (P := fun _ y => y.role = .leader → 0 < y.matched v →
      ∃ j, y.matched v ≤ j ∧ (v, y.term, j) ∈ s'.acked) hother hmatched ?_ m
    intro m hr hpos
    obtain ⟨j, hj, ha⟩ := h.matched hr hpos
    exact ⟨j, hj, hg.acked ha⟩
  · intro m hm
    rcases hissued hm with hold | hnew
    · exact (h.issued hold).grow hg hmono hback hgrow
    · exact hnew
  · intro t ht
    by_cases hold : t ∈ s.elected
    · obtain ⟨Q, hQ, hv⟩ := h.elected hold
      refine ⟨Q, hQ, fun v hm => ⟨(hv v hm).1.trans (hmono v), ?_⟩⟩
      exact (hgrow (hv v hm).2 (hv v hm).1).mono (hg.leaderLog_isPrefix hold)
    · exact helected ht hold
  · refine State.forall_replica (P := fun _ y => CommitKept τ members s' y) hother hcommit ?_
    intro m
    exact (h.commit m).grow hg rfl le_rfl (fun _ _ _ hp => hp)
  · intro v i e hm
    rcases hhanded hm with hold | hnew
    · obtain ⟨t, k, hc, hik, he⟩ := h.handed hold
      refine ⟨t, k, hc.grow hg, hik, ?_⟩
      have hlen := hc.mark.le_length
      rw [← getElem?_eq_of_isPrefix (hg.leaderLog_isPrefix hc.mark.elected) (by omega)]
      exact he
    · exact hnew

variable [DecidableEq N]

/-- Steps that leave the log, the leaders and the acknowledgements alone. -/
theorem Complete.tame (h : Complete τ members s) {x : Replica N E} (hself : s'.replica n = x)
    (hother : ∀ {m}, m ≠ n → s'.replica m = s.replica m) (hel : s'.elected = s.elected)
    (hll : s'.leaderLog = s.leaderLog) (hack : s'.acked = s.acked) (hiss : s.issued ⊆ s'.issued)
    (hterm : (s.replica n).term ≤ x.term) (hlog : x.log = (s.replica n).log)
    (hstored : ∀ {e}, e ∈ x.stored → τ e ≤ x.term)
    (hmatched : ∀ {v}, x.role = .leader → 0 < x.matched v →
      ∃ j, x.matched v ≤ j ∧ (v, x.term, j) ∈ s.acked)
    (hcand : x.role = .candidate → (s.replica n).term < x.term ∨ (s.replica n).role = .candidate)
    (hissued : ∀ {m}, Grows τ s s' → m ∈ s'.issued → m ∈ s.issued ∨ MsgKept τ members s' m)
    (hcommit : Grows τ s s' → CommitKept τ members s' x)
    (hhanded : ∀ {v i e}, Grows τ s s' → (v, i, e) ∈ s'.handed → (v, i, e) ∈ s.handed ∨
      ∃ t k, Committed τ members s' t k ∧ i < k ∧ (s'.leaderLog t)[i]? = some e) :
    Complete τ members s' := by
  have hg : Grows τ s s' :=
    ⟨hel.ge, fun _ => ⟨[], by rw [hll, List.append_nil], by simp⟩, hack.ge, hiss⟩
  refine h.update hg hself hother hterm ?_ hstored ?_ ?_ ?_ ?_ ?_ (hissued hg) ?_ (hcommit hg)
    (hhanded hg)
  · intro e he
    rw [hlog] at he
    exact (h.log_le he).trans hterm
  · intro t e he
    rw [hll] at he
    exact h.leaderLog_le he
  · intro v t j ha
    exact Or.inl (hack ▸ ha)
  · rw [hlog]
    have hcar := (h.carries n).grow hg (fun ha => ⟨(h.acked ha).1, (h.acked ha).2.1⟩)
      (fun ha _ => hack ▸ ha)
    refine hcar.raise (by omega) ?_
    intro u j ha
    rw [hack] at ha
    have := (h.acked ha).2.2
    omega
  · intro v hr hpos
    obtain ⟨j, hj, ha⟩ := hmatched hr hpos
    exact ⟨j, hj, hack.symm ▸ ha⟩
  · intro hr
    exact (hcand hr).imp id (fun hc => ⟨hc, hlog⟩)
  · intro t ht hnot
    rw [hel] at ht
    exact absurd ht hnot

/-- Issuing a message that is justified. -/
theorem Complete.issue (h : Complete τ members s) (n : N) {m : Msg N E}
    (hm : Grows τ s (s.issue m) → MsgKept τ members (s.issue m) m) :
    Complete τ members (s.issue m) := by
  refine h.tame (n := n) rfl (fun _ => rfl) rfl rfl rfl (Set.subset_insert _ _) le_rfl rfl
    h.stored_le h.matched Or.inr ?_ ?_ (fun _ => Or.inl)
  · rintro m' hg (rfl | hm')
    · exact Or.inr (hm hg)
    · exact Or.inl hm'
  · intro hg
    exact (h.commit n).grow hg rfl le_rfl (fun _ _ _ hp => hp)

/-- Moving to a later term, or to a new role in it. -/
theorem Complete.turn (h : Complete τ members s) {t : Nat} {role : Role}
    (ht : (s.replica n).term ≤ t) (hlead : role ≠ .leader)
    (hcand : role = .candidate → (s.replica n).term < t) :
    Complete τ members (s.put n { s.replica n with term := t, role := role }) := by
  refine h.tame (s.put_self n _) (s.put_of_ne · _) rfl rfl rfl subset_rfl ht rfl
    (fun he => (h.stored_le he).trans ht) (fun hr => absurd hr hlead) (fun hr => Or.inl (hcand hr))
    (fun _ => Or.inl) ?_ (fun _ => Or.inl)
  intro hg
  exact (h.commit n).grow hg rfl ht (fun _ _ _ hp => hp)

theorem Complete.persist (h : Complete τ members s) {k : Nat} :
    Complete τ members (s.put n { s.replica n with stored := (s.replica n).log.take k }) := by
  refine h.tame (s.put_self n _) (s.put_of_ne · _) rfl rfl rfl subset_rfl le_rfl rfl
    (fun he => h.log_le (List.take_subset _ _ he)) h.matched Or.inr
    (fun _ => Or.inl) ?_ (fun _ => Or.inl)
  intro hg
  exact (h.commit n).grow hg rfl le_rfl (fun _ _ _ hp => hp)

/-- A leader counts an acknowledgement. -/
theorem Complete.ack (h : Complete τ members s) {v : N} {i : Nat}
    (hm : .accept (s.replica n).term v i ∈ s.issued) :
    Complete τ members (s.put n { s.replica n with
      matched := Function.update (s.replica n).matched v (max ((s.replica n).matched v) i) }) := by
  refine h.tame (s.put_self n _) (s.put_of_ne · _) rfl rfl rfl subset_rfl le_rfl rfl
    h.stored_le ?_ Or.inr (fun _ => Or.inl) ?_ (fun _ => Or.inl)
  · intro u hr hpos
    by_cases hu : u = v
    · subst hu
      simp only [Function.update_self] at hpos ⊢
      rcases Nat.le_total i ((s.replica n).matched u) with hle | hle
      · rw [Nat.max_eq_left hle] at hpos ⊢
        exact h.matched hr hpos
      · rw [Nat.max_eq_right hle]
        exact ⟨i, le_rfl, h.issued hm⟩
    · simp only [Function.update_of_ne hu] at hpos ⊢
      exact h.matched hr hpos
  · intro hg
    exact (h.commit n).grow hg rfl le_rfl (fun _ _ _ hp => hp)

/-- A follower learns a commit index for entries it shares with its leader. -/
theorem Complete.heartbeat (h : Complete τ members s) (hM : Matching τ s) {k : Nat}
    (hm : .heartbeat (s.replica n).term k ∈ s.issued) (hk : (s.replica n).commit < k)
    (hs : (s.replica n).log.take (min k (s.replica n).log.length) <+:
      s.leaderLog (s.replica n).term) :
    Complete τ members (s.put n { s.replica n with commit := min k (s.replica n).log.length }) := by
  refine h.tame (s.put_self n _) (s.put_of_ne · _) rfl rfl rfl subset_rfl le_rfl rfl
    h.stored_le h.matched Or.inr (fun _ => Or.inl) ?_ (fun _ => Or.inl)
  intro hg
  have hel : (s.replica n).term ∈ s.elected := hM.issued _ hm
  rcases h.issued hm with h0 | ⟨t, i, hc, ht, hi⟩
  · omega
  · refine Or.inr ⟨t, i, hc.grow hg, ht, (min_le_left _ _).trans hi, ?_⟩
    have hle : min k (s.replica n).log.length ≤ i := (min_le_left _ _).trans hi
    have hp : s.upTo t (min k (s.replica n).log.length) <+: s.leaderLog (s.replica n).term :=
      (take_prefix_of_le hle).trans (h.upTo_isPrefix hc ht hel)
    rw [hg.upTo_eq hc.mark.elected (hle.trans hc.mark.le_length)]
    -- both are the leader's log up to the same index
    have hlen : (s.upTo t (min k (s.replica n).log.length)).length ≤
        ((s.replica n).log.take (min k (s.replica n).log.length)).length := by
      simp only [State.upTo, List.length_take]
      omega
    exact (isPrefix_of_isPrefix hp hs hlen).trans (List.take_prefix _ _)

/-- A candidate with a majority of votes becomes leader. -/
theorem Complete.win (h : Complete τ members s) (hM : Matching τ s) {Q : Finset N}
    (hr : (s.replica n).role = .candidate) (hQ : Majority members Q)
    (hv : ∀ v ∈ Q, v = n ∨ .grant (s.replica n).term v n ∈ s.issued)
    (hnew : (s.replica n).term ∉ s.elected) :
    Complete τ members { s.put n { s.replica n with role := .leader, matched := fun _ => 0 } with
      elected := insert (s.replica n).term s.elected
      leaderLog := Function.update s.leaderLog (s.replica n).term (s.replica n).log } := by
  have hstep : Step τ members True n s _ := .win hr hQ hv hnew
  have hg := hM.grows hstep
  have hok : ∀ {v u j}, (v, u, j) ∈ s.acked → u ∈ s.elected ∧ j ≤ (s.leaderLog u).length :=
    fun ha => ⟨(h.acked ha).1, (h.acked ha).2.1⟩
  refine h.update hg (s.put_self n _) (s.put_of_ne · _) le_rfl h.log_le h.stored_le ?_ Or.inl
    ((h.carries n).grow hg hok (fun ha _ => ha)) (fun _ hpos => absurd hpos (lt_irrefl 0))
    (fun hc => nomatch hc) Or.inl ?_
    ((h.commit n).grow hg rfl le_rfl (fun _ _ _ hp => hp)) Or.inl
  · intro t e he
    by_cases ht : t = (s.replica n).term
    · subst ht
      simp only [Function.update_self] at he
      exact h.log_le he
    · simp only [Function.update_of_ne ht] at he
      exact h.leaderLog_le he
  · intro t ht hnot
    obtain rfl : t = (s.replica n).term := ht.resolve_right hnot
    refine ⟨Q, hQ, fun v hvQ => ?_⟩
    simp only [Function.update_self]
    rcases hv v hvQ with rfl | hm
    · refine ⟨by simp, ?_⟩
      exact ((h.carries v).lower hnew).grow hg hok (fun ha _ => ha)
    · obtain ⟨htv, -, hcar⟩ := h.issued hm
      refine ⟨?_, (hcar hr rfl hnew).grow hg hok (fun ha _ => ha)⟩
      by_cases hvn : v = n
      · subst hvn
        simp
      · simpa [s.put_of_ne hvn] using htv

/-- A leader appends an entry of its term. -/
theorem Complete.propose (h : Complete τ members s) (hM : Matching τ s) {e : E}
    (hr : (s.replica n).role = .leader) (he : τ e = (s.replica n).term) :
    Complete τ members { s.put n { s.replica n with log := (s.replica n).log ++ [e] } with
      leaderLog :=
        Function.update s.leaderLog (s.replica n).term ((s.replica n).log ++ [e]) } := by
  have hstep : Step τ members True n s _ := .propose hr he
  have hg := hM.grows hstep
  have hlog : ∀ {e'}, e' ∈ (s.replica n).log ++ [e] → τ e' ≤ (s.replica n).term := by
    intro e' he'
    rcases List.mem_append.mp he' with he' | he'
    · exact h.log_le he'
    · rw [List.mem_singleton.mp he', he]
  have hcar := (h.carries n).grow hg (fun ha => ⟨(h.acked ha).1, (h.acked ha).2.1⟩)
    (fun ha _ => ha)
  refine h.update hg (s.put_self n _) (s.put_of_ne · _) le_rfl hlog h.stored_le ?_ Or.inl
    (hcar.mono (List.prefix_append _ _)) h.matched
    (fun hc => absurd (hr.symm.trans hc) (by decide)) Or.inl (fun ht hnot => absurd ht hnot)
    ((h.commit n).grow hg rfl le_rfl (fun _ _ _ hp => hp.trans (List.prefix_append _ _))) Or.inl
  intro t e' he'
  by_cases ht : t = (s.replica n).term
  · subst ht
    simp only [Function.update_self] at he'
    exact hlog he'
  · simp only [Function.update_of_ne ht] at he'
    exact h.leaderLog_le he'

/-- A follower's committed entries are in the log of the leader it follows. -/
theorem Complete.upTo_commit (h : Complete τ members s) {t i : Nat}
    (hel : (s.replica n).term ∈ s.elected) (hc : Committed τ members s t i)
    (ht : t ≤ (s.replica n).term) {k : Nat} (hk : k ≤ i) :
    s.upTo t k <+: s.leaderLog (s.replica n).term :=
  (take_prefix_of_le hk).trans (h.upTo_isPrefix hc ht hel)

/-- A follower never differs from its leader at or below its commit index. -/
theorem Complete.termAt_commit (h : Complete τ members s) (hel : (s.replica n).term ∈ s.elected)
    {c : Nat} (hc : c ≤ (s.replica n).commit) :
    termAt τ (s.replica n).log c = termAt τ (s.leaderLog (s.replica n).term) c := by
  rcases h.commit n with h0 | ⟨t, i, hcom, ht, hi, hp⟩
  · obtain rfl : c = 0 := by omega
    rfl
  · have hlen : c ≤ (s.upTo t (s.replica n).commit).length := by
      have := hcom.mark.le_length
      rw [State.upTo, List.length_take]
      omega
    rw [← termAt_eq_of_isPrefix hp hlen, ← termAt_eq_of_isPrefix (h.upTo_commit hel hcom ht hi) hlen]

omit [DecidableEq N] in
/-- The commit index lies inside the log. -/
theorem Complete.commit_le (h : Complete τ members s) (v : N) :
    (s.replica v).commit ≤ (s.replica v).log.length := by
  rcases h.commit v with h0 | ⟨t, i, hc, -, hi, hp⟩
  · omega
  · have hlen := hp.length_le
    have hmark := hc.mark.le_length
    rw [State.upTo, List.length_take] at hlen
    omega

/-- A follower accepts entries from its leader. -/
theorem Complete.append (h : Complete τ members s) (hM : Matching τ s) {prev pt lc : Nat}
    {ents log' : List E} (hr : (s.replica n).role = .follower)
    (hm : .append (s.replica n).term prev pt ents lc ∈ s.issued)
    (hf : Follows τ True (s.leaderLog (s.replica n).term) (prev + ents.length)
      (s.replica n).commit (s.replica n).log (s.replica n).stored log') :
    Complete τ members
      { (s.put n { s.replica n with
          log := log'
          commit := if lc > (s.replica n).commit then min lc (prev + ents.length)
            else (s.replica n).commit }).issue
          (.accept (s.replica n).term n (prev + ents.length)) with
        acked := insert (n, (s.replica n).term, prev + ents.length) s.acked } := by
  have hstep : Step τ members True n s _ := .append hr hm hf
  have hg := hM.grows hstep
  obtain ⟨hel, hprev, -, hents⟩ := hM.issued _ hm
  have hlen : prev + ents.length ≤ (s.leaderLog (s.replica n).term).length := by
    have := hents.length_le
    rw [List.length_drop] at this
    omega
  have hholds : (s.leaderLog (s.replica n).term).take (prev + ents.length) <+: log' := by
    rcases hf.holds trivial with hp | ⟨c, hc, -, -, hne⟩
    · exact hp
    · exact absurd (h.termAt_commit hel hc) hne
  refine h.update hg (s.put_self n _) (s.put_of_ne · _) le_rfl ?_ h.stored_le h.leaderLog_le ?_ ?_
    (fun hl => absurd (hr.symm.trans hl) (by decide))
    (fun hl => absurd (hr.symm.trans hl) (by decide)) ?_ (fun ht hnot => absurd ht hnot) ?_ Or.inl
  · intro e he
    rcases hf.source with hp | rfl | rfl
    · exact h.log_le (hp.subset he)
    · exact h.stored_le he
    · exact h.leaderLog_le (List.take_subset _ _ he)
  · rintro v t j (heq | ha)
    · cases heq
      exact Or.inr ⟨rfl, rfl, hel, hlen⟩
    · exact Or.inl ha
  · -- the old acknowledgements are kept, the new one is what the log now holds
    intro t i j ha ht hi hmk hsp
    rcases ha with heq | ha
    · cases heq
      exact (take_prefix_of_le hi).trans hholds
    · obtain ⟨helt, hj, hle⟩ := h.acked ha
      have hmk' := hmk.back hg helt (hi.trans hj)
      have hsp' := hsp.back hmk' hg
      refine hf.keeps trivial (h.carries n t i j ha ht hi hmk' hsp') ?_
      rcases Nat.lt_or_eq_of_le hle with hlt | rfl
      · exact hsp' _ hlt (Nat.lt_succ_self _) hel
      · exact List.take_prefix _ _
  · rintro m (rfl | hm')
    · exact Or.inr (Set.mem_insert _ _)
    · exact Or.inl hm'
  · by_cases hlc : lc > (s.replica n).commit
    · rcases h.issued hm with h0 | ⟨t, i, hc, ht, hi⟩
      · omega
      · have hmin : min lc (prev + ents.length) ≤ i := (min_le_left _ _).trans hi
        refine Or.inr ⟨t, i, hc.grow hg, ht, by simpa only [if_pos hlc] using hmin, ?_⟩
        rw [if_pos hlc]
        change s.upTo t (min lc (prev + ents.length)) <+: log'
        refine List.IsPrefix.trans ?_ hholds
        refine (prefix_take_iff_of_length ?_).mpr (h.upTo_commit hel hc ht hmin)
        rw [State.upTo, List.length_take]
        omega
    · refine (h.commit n).grow hg (by simp only [if_neg hlc]) le_rfl ?_
      intro t i hc ht hi hp
      exact hf.keeps trivial hp (h.upTo_commit hel hc ht hi)

/-- A leader commits an entry of its own term that a majority acknowledged. -/
theorem Complete.commitStep (h : Complete τ members s) (hM : Matching τ s) {k : Nat} {Q : Finset N}
    (hr : (s.replica n).role = .leader) (hk : termAt τ (s.replica n).log k = (s.replica n).term)
    (hQ : Majority members Q) (hv : ∀ v ∈ Q, v = n ∨ k ≤ (s.replica n).matched v) :
    Complete τ members { s.put n { s.replica n with commit := k } with
      acked := insert (n, (s.replica n).term, k) s.acked } := by
  have hstep : Step τ members True n s _ := .commit hr hk hQ hv
  have hg := hM.grows hstep
  obtain ⟨hlog, hel⟩ := hM.leads hr
  have hmark : Mark τ s (s.replica n).term k :=
    ⟨hel, Nat.one_le_iff_ne_zero.mp (hM.elected_pos hel), hlog ▸ hk⟩
  have hcom : Committed τ members { s.put n { s.replica n with commit := k } with
      acked := insert (n, (s.replica n).term, k) s.acked } (s.replica n).term k := by
    refine ⟨hmark.grow hg, Q, hQ, fun v hvQ => ?_⟩
    rcases hv v hvQ with rfl | hle
    · exact ⟨k, le_rfl, Set.mem_insert _ _⟩
    · obtain ⟨j, hj, ha⟩ := h.matched hr (hmark.one_le.trans hle)
      exact ⟨j, hle.trans hj, Set.mem_insert_of_mem _ ha⟩
  refine h.update hg (s.put_self n _) (s.put_of_ne · _) le_rfl h.log_le h.stored_le h.leaderLog_le
    ?_ ?_ ?_ (fun hc => absurd (hr.symm.trans hc) (by decide)) Or.inl
    (fun ht hnot => absurd ht hnot) ?_ Or.inl
  · rintro v t j (heq | ha)
    · cases heq
      exact Or.inr ⟨rfl, rfl, hel, hmark.le_length⟩
    · exact Or.inl ha
  · intro t i j ha ht hi hmk hsp
    rcases ha with heq | ha
    · cases heq
      rw [hlog]
      exact List.take_prefix _ _
    · obtain ⟨helt, hj, -⟩ := h.acked ha
      have hmk' := hmk.back hg helt (hi.trans hj)
      exact h.carries n t i j ha ht hi hmk' (hsp.back hmk' hg)
  · intro v _ hpos
    obtain ⟨j, hj, ha⟩ := h.matched hr hpos
    exact ⟨j, hj, Set.mem_insert_of_mem _ ha⟩
  · refine Or.inr ⟨_, k, hcom, le_rfl, le_rfl, ?_⟩
    rw [hg.upTo_eq hel hmark.le_length, State.upTo, ← hlog]
    exact List.take_prefix _ _

theorem Complete.handOut (h : Complete τ members s) {i : Nat} {e : E}
    (hi : i < (s.replica n).commit) (he : (s.replica n).log[i]? = some e) :
    Complete τ members { s with handed := insert (n, i, e) s.handed } := by
  refine h.tame (n := n) rfl (fun _ => rfl) rfl rfl rfl subset_rfl le_rfl rfl
    h.stored_le h.matched Or.inr (fun _ => Or.inl) ?_ ?_
  · intro hg
    exact (h.commit n).grow hg rfl le_rfl (fun _ _ _ hp => hp)
  · rintro v j e' hg (heq | hm)
    · cases heq
      refine Or.inr ?_
      rcases h.commit n with h0 | ⟨t, k, hc, -, hk, hp⟩
      · omega
      · refine ⟨t, k, hc.grow hg, by omega, ?_⟩
        have hlen := hc.mark.le_length
        have hget := getElem?_eq_of_isPrefix hp (i := i)
          (by rw [State.upTo, List.length_take]; omega)
        rw [State.upTo, List.getElem?_take, if_pos hi, he] at hget
        exact hget
    · exact Or.inl hm

/-- Every step of the strict system keeps the invariant. -/
theorem Complete.step_true (h : Complete τ members s) (hM : Matching τ s)
    (hs : Step τ members True n s s') : Complete τ members s' := by
  cases hs with
  | follow ht => exact h.turn ht (by decide) (fun hc => nomatch hc)
  | campaign ht => exact h.turn ht.le (by decide) (fun _ => ht)
  | request hr => exact h.issue n (fun _ => ⟨le_rfl, fun _ _ => ⟨rfl, rfl⟩⟩)
  | @grant c lt li hr hm hup =>
    refine h.issue n (fun hg => ?_)
    obtain ⟨htc, hreq⟩ := h.issued hm
    refine ⟨le_rfl, htc, ?_⟩
    intro hrc hc hel
    obtain ⟨hlt, hli⟩ := hreq hrc hc
    exact (h.carries_of_upToDate hM rfl hc hel hlt hli hup).grow hg
      (fun ha => ⟨(h.acked ha).1, (h.acked ha).2.1⟩) (fun ha _ => ha)
  | win hr hQ hg hnew => exact h.win hM hr hQ hg hnew
  | propose hr he => exact h.propose hM hr he
  | sendAppend hr hprev hents =>
    refine h.issue n (fun hg => ?_)
    rcases h.commit n with h0 | ⟨t, i, hc, ht, hi, -⟩
    · exact Or.inl h0
    · exact Or.inr ⟨t, i, hc.grow hg, ht, hi⟩
  | sendHeartbeat hr =>
    refine h.issue n (fun hg => ?_)
    rcases h.commit n with h0 | ⟨t, i, hc, ht, hi, -⟩
    · exact Or.inl h0
    · exact Or.inr ⟨t, i, hc.grow hg, ht, hi⟩
  | append hr hm hf => exact h.append hM hr hm hf
  | refuse hi => exact h.issue n (fun _ => trivial)
  | heartbeat hr hm hk hs => exact h.heartbeat hM hm hk (hs trivial)
  | ack hr hm => exact h.ack hm
  | commit hr hk hQ hm => exact h.commitStep hM hr hk hQ hm
  | handOut hi he => exact h.handOut hi he
  | persist => exact h.persist
  | restart hs => exact absurd trivial hs

theorem Complete.step {strict : Prop} (hst : strict) (h : Complete τ members s) (hM : Matching τ s)
    (hs : Step τ members strict n s s') : Complete τ members s' := by
  obtain rfl : strict = True := eq_true hst
  exact h.step_true hM hs

omit [DecidableEq N] in
theorem Complete.initial {replica : N → Replica N E}
    (h : ∀ n, (replica n).log = [] ∧ (replica n).stored = [] ∧ (replica n).role = .follower ∧
      (replica n).commit = 0) : Complete τ members (State.initial replica) where
  log_le := fun {n e} he => by
    simp only [State.initial, (h n).1, List.not_mem_nil] at he
  stored_le := fun {n e} he => by
    simp only [State.initial, (h n).2.1, List.not_mem_nil] at he
  leaderLog_le := fun he => nomatch he
  acked := fun ha => ha.elim
  carries := fun v t i j ha => ha.elim
  matched := fun {n v} hr => absurd ((h n).2.2.1.symm.trans hr) (by decide)
  issued := fun hm => hm.elim
  elected := fun ht => ht.elim
  commit := fun v => Or.inl (h v).2.2.2
  handed := fun hm => hm.elim

/-! ## What a leader has committed -/

omit [DecidableEq N] in
/-- The committed part of a log is a prefix of the log of a term, up to an entry of that term's
own leader that a majority acknowledged. -/
theorem CommitKept.committed {x : Replica N E} (h : CommitKept τ members s x) (hpos : 0 < x.commit) :
    ∃ t i, Committed τ members s t i ∧ t ≤ x.term ∧ (s.upTo t x.commit).length = x.commit ∧
      s.upTo t x.commit <+: s.upTo t i ∧ s.upTo t x.commit <+: x.log := by
  rcases h with h0 | ⟨t, i, hc, ht, hi, hp⟩
  · omega
  · refine ⟨t, i, hc, ht, ?_, take_prefix_of_le hi, hp⟩
    rw [State.upTo, List.length_take, Nat.min_eq_left (hi.trans hc.mark.le_length)]

/-- Leaders of later terms have it at every later moment. -/
theorem Complete.kept_later (h' : Complete τ members s') (hg : Grows τ s s') {x : Replica N E}
    (hk : CommitKept τ members s x) {t' : Nat} (hlt : x.term < t') (hel : t' ∈ s'.elected) :
    ∃ p, p.length = x.commit ∧ p <+: x.log ∧ p <+: s'.leaderLog t' := by
  rcases Nat.eq_zero_or_pos x.commit with h0 | hpos
  · exact ⟨[], h0.symm, List.nil_prefix, List.nil_prefix⟩
  · obtain ⟨t, i, hc, ht, hlen, hpi, hp⟩ := hk.committed hpos
    refine ⟨_, hlen, hp, hpi.trans ?_⟩
    rw [← hg.upTo_eq hc.mark.elected hc.mark.le_length]
    exact h'.leader_complete (hc.grow hg) (lt_of_le_of_lt ht hlt) hel

/-- Leaders of later terms had it at every earlier moment. -/
theorem Complete.kept_earlier (h' : Complete τ members s') (hg : Grows τ s s') {x : Replica N E}
    (hk : CommitKept τ members s' x) {t' : Nat} (hlt : x.term < t') (hel : t' ∈ s.elected) :
    ∃ p, p.length = x.commit ∧ p <+: x.log ∧ p <+: s.leaderLog t' := by
  rcases Nat.eq_zero_or_pos x.commit with h0 | hpos
  · exact ⟨[], h0.symm, List.nil_prefix, List.nil_prefix⟩
  · obtain ⟨t, i, hc, ht, hlen, hpi, hp⟩ := hk.committed hpos
    have hlt' := lt_of_le_of_lt ht hlt
    have hp' := h'.leader_complete hc hlt' (hg.elected hel)
    exact ⟨_, hlen, hp, hpi.trans (hc.mark.prefix_earlier hg hlt' hel hp')⟩

end Complete

end NexusLOB.Consensus.Replication
