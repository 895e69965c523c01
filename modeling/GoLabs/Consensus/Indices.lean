import GoLabs.Consensus.Rounds

/-!
# The indices stay inside the log

`0 ≤ lastApplied ≤ commitIndex ≤ len(log)-1` in every state, and `commitIndex` never decreases: the
bound on `apply`, which reads `log[lastApplied]` without a test.

This fails (`indices_fail`). A follower cuts its log to what the request carries, whatever it holds
behind it, and an old request that arrives late carries less than is committed; `commitIndex` stays
where it is and the next iteration of `apply` reads past the end of the log. `cutsCommitted` is that
step, an accepted request that ends before the follower's `commitIndex`. It is the only one:
`commitIndex` is set to the end of the log in the other place that writes it, at once or after the
peer has lost the leadership, so it can only grow there. Without `cutsCommitted` the bounds hold
(`indices`), and every step of `cutsCommitted` breaks one of them (`fails_of_cutsCommitted`).
-/

namespace GoLabs.Consensus

open GoLabs.Lib

variable {n : ℕ} {C : Type}

/-- `0 ≤ lastApplied ≤ commitIndex ≤ len(log)-1`. -/
structure IndicesOk (rf : Raft n C) : Prop where
  applied_nonneg : 0 ≤ rf.lastApplied
  applied_le : rf.lastApplied ≤ rf.commitIndex
  commit_le : rf.commitIndex ≤ (rf.log.length : ℤ) - 1

/-- The step that goes wrong: a follower takes a request that ends before its `commitIndex`.
Source: `raft.go` `AppendEntries` -/
def cutsCommitted (st : Cluster n C) : Action n C → Bool
  | .appendEntries r p => (st.beatRequest? r p).any fun args =>
      (st.rafts p).accepts args ∧
        args.prevLogIndex + args.entries.length < (st.rafts p).commitIndex
  | _ => false

/-- The follower's rule for `commitIndex` keeps it between the old value and the end of the log. -/
lemma accept_commitIndex (rf : Raft n C) (args : AppendEntriesArgs n C)
    (h : rf.commitIndex ≤ ((rf.accept args).log.length : ℤ) - 1) :
    rf.commitIndex ≤ (rf.accept args).commitIndex ∧
      (rf.accept args).commitIndex ≤ ((rf.accept args).log.length : ℤ) - 1 := by
  have hlog := Raft.accept_log rf args
  rw [hlog] at h ⊢
  simp only [Raft.accept]
  split_ifs <;> omega

/-- One step keeps the indices in the log and does not lower `commitIndex`. -/
lemma PeerStep.indicesOk {st : Cluster n C} {a : Action n C} {s : Fin n} {rf : Raft n C}
    (h : PeerStep st a s rf) (hcut : ¬ cutsCommitted st a) (hok : IndicesOk (st.rafts s)) :
    IndicesOk rf ∧ (st.rafts s).commitIndex ≤ rf.commitIndex := by
  obtain ⟨h0, hle, hlen⟩ := hok
  cases h with
  | quiet _ _ _ log commit applied =>
      exact ⟨⟨by omega, by omega, by rw [log]; omega⟩, commit.ge⟩
  | raise => exact ⟨⟨by simpa, by simpa, by simpa using hlen⟩, by simp⟩
  | vote => exact ⟨⟨by simpa, by simpa, by simpa using hlen⟩, by simp⟩
  | @accept r rd args prev ha hrd hc hs ht hi hp hpt =>
      have hlog := accept_log_length { st.rafts s with currentTerm := args.term } hi hp
      have hnot : (st.rafts s).commitIndex ≤ args.prevLogIndex + args.entries.length := by
        by_contra hlt
        refine hcut ?_
        have hacc := Raft.accepts_iff.mpr ⟨hs, ht, hi, prev, hp, hpt⟩
        simp [ha, cutsCommitted, Cluster.beatRequest?_eq_some hrd hc, hacc]
        omega
      obtain ⟨hge, hle'⟩ :=
        accept_commitIndex { st.rafts s with currentTerm := args.term } args (by
          rw [hlog]
          simp only
          omega)
      exact ⟨⟨h0, hle.trans hge, hle'⟩, hge⟩
  | commit =>
      refine ⟨⟨h0, hle.trans hlen, le_refl _⟩, hlen⟩
  | start =>
      refine ⟨⟨h0, hle, ?_⟩, le_refl _⟩
      simp only [List.length_append, List.length_singleton]
      omega
  | apply ha hlt =>
      exact ⟨⟨by simp only; omega, by simp only; omega, hlen⟩, le_refl _⟩
  | _ => exact ⟨⟨h0, hle, hlen⟩, le_refl _⟩

/-- **A step of `cutsCommitted` breaks the bounds**, whatever was before it: the peer's
`commitIndex` is left behind the end of its log, or set back to it. -/
theorem fails_of_cutsCommitted {st st' : Cluster n C} {a : Action n C} (hs : st.step a = some st')
    (hcut : cutsCommitted st a) : ∃ s, ¬ IndicesOk (st'.rafts s) ∨
      (st'.rafts s).commitIndex < (st.rafts s).commitIndex := by
  cases a with
  | appendEntries r s =>
      obtain ⟨args, hargs, hcut⟩ := (Option.any_eq_true _ _).mp hcut
      obtain ⟨hacc, hlt⟩ := of_decide_eq_true hcut
      obtain ⟨rd, hrd, hc⟩ := Option.bind_eq_some_iff.mp hargs
      rw [Rpc.requested?_eq_some] at hc
      change st.appendEntries r s = some st' at hs
      simp only [Cluster.appendEntries, hrd, hc, Raft.appendEntries_of_accepts hacc,
        Option.bind_eq_bind, Option.bind_some, Option.some.injEq] at hs
      have hlen : ((st'.rafts s).log.length : ℤ) = args.prevLogIndex + 1 + args.entries.length := by
        rw [← hs, ← Raft.log_length_of_accepts hacc args.term]
        simp
      refine ⟨s, or_iff_not_imp_right.mpr fun hlow hok => ?_⟩
      have hle := hok.commit_le
      omega
  | _ => cases hcut

/-- With the indices in the log, `apply` does not read past its end. -/
lemma IndicesOk.apply_ne_none {rf : Raft n C} (h : IndicesOk rf) : rf.apply ≠ none := by
  unfold Raft.apply
  split_ifs with hlt
  · have hsome : (Slice.get? rf.log (rf.lastApplied + 1)).isSome := by
      rw [Slice.isSome_get?_iff]
      have := h.applied_nonneg
      have := h.commit_le
      omega
    obtain ⟨entry, he⟩ := Option.isSome_iff_exists.mp hsome
    simp [he]
  · simp

section Runs

variable [Inhabited C] {tr : Trace n C} {st : Cluster n C}

/-- **The indices stay inside the log**, `apply` never reads past its end and no `commitIndex`
decreases, in every run in which no follower takes a request that ends before its `commitIndex`. -/
theorem indices (h : (cluster n C).Run tr st) (hD : Avoids (fun x a => cutsCommitted x a) tr) :
    (∀ s, IndicesOk (st.rafts s) ∧ (st.rafts s).apply ≠ none) ∧
      ∀ x s, Visited tr st x → (x.rafts s).commitIndex ≤ (st.rafts s).commitIndex := by
  have main : (∀ s, IndicesOk (st.rafts s)) ∧
      ∀ x s, Visited tr st x → (x.rafts s).commitIndex ≤ (st.rafts s).commitIndex := by
    refine System.Run.induction_avoiding (P := fun tr st => (∀ s, IndicesOk (st.rafts s)) ∧
      ∀ x s, Visited tr st x → (x.rafts s).commitIndex ≤ (st.rafts s).commitIndex) ?_ ?_ h hD
    · refine ⟨fun s => ⟨le_refl _, le_refl _, ?_⟩, ?_⟩
      · simp [cluster, Cluster.make, make]
      · rintro x s (rfl | ⟨a, ha⟩)
        · exact le_refl _
        · exact absurd ha List.not_mem_nil
    · rintro tr x a y - - ⟨hok, hmono⟩ hcut hs
      have hstep := fun s => ((Step.of_cluster hs).peer s).indicesOk hcut (hok s)
      refine ⟨fun s => (hstep s).1, ?_⟩
      rintro z s (rfl | ⟨b, hb⟩)
      · exact le_refl _
      · exact (hmono z s (Visited.of_cons hb)).trans (hstep s).2
  exact ⟨fun s => ⟨main.1 s, (main.1 s).apply_ne_none⟩, main.2⟩

/-- One entry is appended, replicated, committed and applied on both peers. -/
theorem indices_run : ∃ tr st, (cluster 2 ℕ).Run tr st ∧
    Avoids (fun x a => cutsCommitted x a) tr ∧ (st.rafts 1).lastApplied = 1 ∧
    IndicesOk (st.rafts 1) := by
  obtain ⟨tr, st, h, hD, hla⟩ := (cluster 2 ℕ).exists_run_of_exec
    [.timer 0, .attemptEletion 0, .requestVote 0 1, .voteReply 0 1, .start 0 10, .heartBeat 0,
      .heartBeatArgs 0 1, .appendEntries 0 1, .heartBeatReply 0 1, .heartBeat 0,
      .heartBeatArgs 1 1, .appendEntries 1 1, .apply 0, .apply 1]
    (fun tr st => Avoids (fun x a => cutsCommitted x a) tr ∧ (st.rafts 1).lastApplied = 1)
    (by decide)
  exact ⟨tr, st, h, hD, hla, ((indices h hD).1 1).1⟩

/-- A run after which `apply` reads past the end of the log. The first heartbeat of 0 carries no
entries and is delayed; the next two replicate and commit an entry on 1; then the first one arrives
and 1 cuts the entry off again. -/
theorem indices_fail : ∃ tr st, (cluster 2 ℕ).Run tr st ∧
    (st.rafts 1).commitIndex = 1 ∧ ((st.rafts 1).log.length : ℤ) - 1 = 0 ∧
    (st.rafts 1).apply.isNone :=
  (cluster 2 ℕ).exists_run_of_exec
    [.timer 0, .attemptEletion 0, .requestVote 0 1, .voteReply 0 1, .heartBeat 0,
      .heartBeatArgs 0 1, .start 0 10, .heartBeat 0, .heartBeatArgs 1 1, .appendEntries 1 1,
      .heartBeatReply 1 1, .heartBeat 0, .heartBeatArgs 2 1, .appendEntries 2 1,
      .appendEntries 0 1]
    (fun _ st => (st.rafts 1).commitIndex = 1 ∧ ((st.rafts 1).log.length : ℤ) - 1 = 0 ∧
      (st.rafts 1).apply.isNone) (by decide)

end Runs

end GoLabs.Consensus
