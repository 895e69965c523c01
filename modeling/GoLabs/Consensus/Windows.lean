import GoLabs.Consensus.Bookkeeping

/-!
# Between the check of the role and the request

`HeartBeat` looks at the role in one critical section, and each goroutine that it spawns builds its
arguments in another one. In between the peer may be demoted and, as a follower, take the request of
another leader, which cuts its log; `nextIndex` still describes the log that it had. A goroutine
that builds its arguments now reads `rf.log[rf.nextIndex[index]-1]`, and this is out of range when
the log has become shorter than `nextIndex[index]` (`buildsInRange_fails`).

Nothing else brings a waiting goroutine out of range. `nextIndex` is only ever set to the length of
the log or to an index inside it, in any role (`BookStep.next_cases`), and the log only grows unless
a request cuts it. So in every run without a step that cuts the log below a `nextIndex` for which a
goroutine waits (`cutsBelow`) all goroutines find their index in range (`buildsInRange`); and such
a step leaves a goroutine that would panic (`panics_of_cutsBelow`).
-/

namespace GoLabs.Consensus

open GoLabs.Lib

variable {n : ℕ} {C : Type}

/-! ## Indices in range -/

/-- `1 <= nextIndex[p] <= len(log)`. -/
def Raft.InRange (rf : Raft n C) (p : Fin n) : Prop :=
  ∃ next, rf.nextIndex[(p : ℕ)]? = some next ∧ 1 ≤ next ∧ next ≤ (rf.log.length : ℤ)

/-- The arguments can be built exactly when the index is in range.
Source: `raft.go` `HeartBeat` -/
lemma Raft.isSome_heartBeatArgs_iff {rf : Raft n C} {me p : Fin n} :
    (rf.heartBeatArgs me p).isSome ↔ rf.InRange p := by
  constructor
  · intro h
    obtain ⟨args, h⟩ := Option.isSome_iff_exists.mp h
    simp only [Raft.heartBeatArgs, Option.bind_eq_bind, Option.bind_eq_some_iff] at h
    obtain ⟨next, hnext, prev, hprev, entries, hentries, -⟩ := h
    obtain ⟨hpos, -⟩ := Slice.get?_eq_some_iff.mp hprev
    obtain ⟨⟨-, hle⟩, -⟩ := Slice.from?_eq_some_iff.mp hentries
    refine ⟨next, ?_, by omega, hle⟩
    simpa using (Slice.get?_eq_some_iff.mp hnext).2
  · rintro ⟨next, hnext, hpos, hle⟩
    have hget : Slice.get? rf.nextIndex (p : ℕ) = some next :=
      Slice.get?_eq_some_iff.mpr ⟨by omega, by simpa using hnext⟩
    obtain ⟨prev, hprev⟩ : ∃ prev, Slice.get? rf.log (next - 1) = some prev :=
      Option.isSome_iff_exists.mp (Slice.isSome_get?_iff.mpr ⟨by omega, by omega⟩)
    have hfrom : Slice.from? rf.log next = some (rf.log.drop next.toNat) :=
      Slice.from?_eq_some_iff.mpr ⟨⟨by omega, hle⟩, rfl⟩
    simp [Raft.heartBeatArgs, hget, hprev, hfrom]

/-- The books of a leader are in range for every peer. -/
lemma BooksOk.inRange {rf : Raft n C} (h : BooksOk rf) (p : Fin n) : rf.InRange p := by
  have hp : (p : ℕ) < rf.nextIndex.length := by
    rw [h.next_length]
    exact p.isLt
  exact ⟨_, List.getElem?_eq_getElem hp, h.next _ (List.getElem_mem hp)⟩

/-- **What a step does to one `nextIndex`**: nothing, or it sets it to an index inside the log. -/
theorem BookStep.next_cases {st : Cluster n C} {a : Action n C} {s : Fin n} {rf : Raft n C}
    (h : BookStep st a s rf)
    (htable : PointsInto (st.rafts s).termToIndex (st.rafts s).log.length) (p : Fin n) :
    rf.nextIndex[(p : ℕ)]? = (st.rafts s).nextIndex[(p : ℕ)]? ∨ rf.InRange p := by
  have hlen := htable 0
  cases h with
  | same _ next => exact Or.inl (by rw [next])
  | promote =>
      refine Or.inr ⟨((st.rafts s).log.length : ℤ), ?_, by omega, le_refl _⟩
      exact List.getElem?_replicate_of_lt p.isLt
  | accept => exact Or.inl rfl
  | backUp hn =>
      have hget := Slice.getElem?_of_set? (j := (p : ℕ)) hn
      split_ifs at hget
      · exact Or.inr ⟨_, hget, htable.backUp _⟩
      · exact Or.inl hget
  | success hn hm =>
      have hget := Slice.getElem?_of_set? (j := (p : ℕ)) hn
      split_ifs at hget
      · exact Or.inr ⟨_, hget, by omega, le_refl _⟩
      · exact Or.inl hget
  | start => exact Or.inl rfl

/-! ## Waiting goroutines -/

/-- The goroutine has been spawned and has not built its arguments. -/
def Rpc.isSpawned {α ρ : Type} : Rpc α ρ → Bool
  | spawned => true
  | _ => false

/-- A goroutine that waits for the lock. -/
lemma Rpc.isSpawned_iff {α ρ : Type} {call : Rpc α ρ} : call.isSpawned ↔ call = .spawned := by
  cases call <;> simp [isSpawned]

/-- A goroutine of `s` has still to build its request to `p`. -/
def Cluster.waits (st : Cluster n C) (s p : Fin n) : Bool :=
  st.rounds.any fun rd => rd.leader = s ∧ (rd.calls p).isSpawned

/-- A goroutine of `s` that has still to build the request for `p`. -/
lemma Cluster.waits_iff {st : Cluster n C} {s p : Fin n} :
    st.waits s p ↔ ∃ (r : ℕ) (rd : Round n C), st.rounds[r]? = some rd ∧ rd.leader = s ∧
      rd.calls p = .spawned := by
  simp only [waits, List.any_eq_true, decide_eq_true_eq, Rpc.isSpawned_iff]
  constructor
  · rintro ⟨rd, hmem, hl, hc⟩
    obtain ⟨r, hr⟩ := List.mem_iff_getElem?.mp hmem
    exact ⟨r, rd, hr, hl, hc⟩
  · rintro ⟨r, rd, hr, hl, hc⟩
    exact ⟨rd, List.mem_of_getElem? hr, hl, hc⟩

/-- A goroutine that waits after a step was waiting before it, or has just been spawned by a
leader. -/
lemma Step.waits {st st' : Cluster n C} {a : Action n C} (h : Step st a st') {s p : Fin n}
    (hw : st'.waits s p) :
    st.waits s p ∨ (a = .heartBeat s ∧ (st.rafts s).state = .leader) := by
  obtain ⟨r, rd, hrd, hl, hc⟩ := Cluster.waits_iff.mp hw
  -- a call that moves on does not wait afterwards, and the others stay as they are
  have hold : ∀ {rd₀ : Round n C} {q : Fin n}
      {call : Rpc (AppendEntriesArgs n C) AppendEntriesReply}, st.rounds[r]? = some rd₀ →
      rd₀.leader = s → call ≠ .spawned → Function.update rd₀.calls q call p = .spawned →
      st.waits s p := by
    intro rd₀ q call hr hl hne hp
    by_cases hpq : p = q
    · subst hpq
      rw [Function.update_self] at hp
      exact absurd hp hne
    · rw [Function.update_of_ne hpq] at hp
      exact Cluster.waits_iff.mpr ⟨r, rd₀, hr, hl, hp⟩
  cases h.round hrd with
  | old hr => exact Or.inl (Cluster.waits_iff.mpr ⟨r, rd, hr, hl, hc⟩)
  | new ha hs =>
      subst hl
      exact Or.inr ⟨ha, hs⟩
  | built ha hr hc' hargs => exact Or.inl (hold hr hl (by simp) hc)
  | answered ha hr hc' hok => exact Or.inl (hold hr hl (by simp) hc)
  | returned ha hr hc' hcount => exact Or.inl (hold hr hl (by simp) hc)

/-! ## The steps that cut too much -/

/-- The step that goes wrong: a follower accepts a request that leaves its log shorter than a
`nextIndex` for which one of its own goroutines is still to build a request.
Source: `raft.go` `AppendEntries`, `HeartBeat` -/
def cutsBelow (st : Cluster n C) : Action n C → Bool
  | .appendEntries r s => (st.beatRequest? r s).any fun args =>
      (st.rafts s).accepts args ∧ ∃ p, st.waits s p ∧
        ∃ next ∈ (st.rafts s).nextIndex[(p : ℕ)]?,
          args.prevLogIndex + 1 + args.entries.length < next
  | _ => false

/-- Apart from `cutsBelow`, the log stays as long as an index for which a goroutine waits. -/
lemma Step.log_length_ge {st st' : Cluster n C} {a : Action n C} (h : Step st a st')
    (hcut : ¬ cutsBelow st a) {s p : Fin n} (hw : st.waits s p) {next : ℤ}
    (hnext : (st.rafts s).nextIndex[(p : ℕ)]? = some next)
    (hle : next ≤ ((st.rafts s).log.length : ℤ)) : next ≤ ((st'.rafts s).log.length : ℤ) := by
  rcases (h.peer s).log_cases with
    hlog | ⟨c, -, -, -, hlog⟩ | ⟨r, rd, args, rfl, hrd, hc, hacc, hrf⟩
  · rwa [hlog]
  · rw [hlog, List.length_append]
    push_cast
    omega
  · rw [hrf, Raft.log_length_of_accepts hacc]
    by_contra hlt
    refine hcut ?_
    simp only [cutsBelow, Cluster.beatRequest?_eq_some hrd hc, Option.any_some, decide_eq_true_eq]
    exact ⟨hacc, p, hw, next, hnext, not_le.mp hlt⟩

/-- A goroutine that waits goes on waiting when the call of another one moves. -/
lemma Cluster.waits_setRound {st : Cluster n C} {s p q : Fin n} (hw : st.waits s p) {r : ℕ}
    {rd : Round n C} (hrd : st.rounds[r]? = some rd) (hq : rd.calls q ≠ .spawned)
    (call : Rpc (AppendEntriesArgs n C) AppendEntriesReply) :
    (st.setRound r { rd with calls := Function.update rd.calls q call }).waits s p := by
  obtain ⟨r', rd', hrd', hl, hc⟩ := Cluster.waits_iff.mp hw
  by_cases hr : r = r'
  · subst hr
    rw [hrd, Option.some.injEq] at hrd'
    subst hrd'
    have hpq : p ≠ q := by
      rintro rfl
      exact hq hc
    obtain ⟨hlen, -⟩ := List.getElem?_eq_some_iff.mp hrd
    exact Cluster.waits_iff.mpr
      ⟨r, _, List.getElem?_set_self hlen, hl, (Function.update_of_ne hpq _ _).trans hc⟩
  · refine Cluster.waits_iff.mpr ⟨r', rd', ?_, hl, hc⟩
    rw [Cluster.setRound_rounds, List.getElem?_set_ne hr, hrd']

/-- **A step of `cutsBelow` leaves a goroutine that would panic**, whatever was before it. -/
theorem panics_of_cutsBelow {st st' : Cluster n C} {a : Action n C} (hs : st.step a = some st')
    (hcut : cutsBelow st a) : ∃ (r : ℕ) (rd : Round n C) (p : Fin n),
      st'.rounds[r]? = some rd ∧ rd.calls p = .spawned ∧ st'.step (.heartBeatArgs r p) = none := by
  cases a with
  | appendEntries r s =>
      obtain ⟨args, hargs, hcut⟩ := (Option.any_eq_true _ _).mp hcut
      obtain ⟨hacc, p, hw, next, hnext, hlt⟩ := of_decide_eq_true hcut
      obtain ⟨rd, hrd, hc⟩ := Option.bind_eq_some_iff.mp hargs
      rw [Rpc.requested?_eq_some] at hc
      have hnone : ({ st.rafts s with currentTerm := args.term }.accept args).heartBeatArgs s p =
          none := by
        rw [← Option.not_isSome_iff_eq_none, Raft.isSome_heartBeatArgs_iff]
        rintro ⟨next', hnext', -, hle⟩
        have heq : next' = next := Option.some.inj (hnext'.symm.trans hnext)
        rw [Raft.log_length_of_accepts hacc, heq] at hle
        omega
      -- the goroutine still waits after the answer has been noted in round `r`
      obtain ⟨r', rd', hrd', hl, hc'⟩ := Cluster.waits_iff.mp
        (Cluster.waits_setRound hw hrd (by rw [hc]; simp) (.replied args ⟨args.term, true⟩))
      change st.appendEntries r s = some st' at hs
      simp only [Cluster.appendEntries, hrd, hc, Raft.appendEntries_of_accepts hacc,
        Option.bind_eq_bind, Option.bind_some, Option.some.injEq] at hs
      subst hs
      rw [Cluster.setRound_rounds] at hrd'
      refine ⟨r', rd', p, hrd', hc', ?_⟩
      change Cluster.heartBeatArgs _ r' p = none
      simp [Cluster.heartBeatArgs, hrd', hc', hl, hnone]
  | _ => cases hcut

section Runs

variable [Inhabited C] {tr : Trace n C} {st : Cluster n C}

/-- Every waiting goroutine finds its index in range. -/
theorem inRange_of_run (h : (cluster n C).Run tr st)
    (hD : Avoids (fun x a => cutsBelow x a) tr) :
    ∀ s p, st.waits s p → (st.rafts s).InRange p := by
  refine System.Run.induction_avoiding
    (P := fun _ st => ∀ s p, st.waits s p → (st.rafts s).InRange p) ?_ ?_ h hD
  · intro s p hw
    simp [cluster, Cluster.make, Cluster.waits] at hw
  · intro tr x a y hrun _ ih hcut hs s p hw
    have hstep := Step.of_cluster hs
    have htable := termToIndex_of_run hrun (Visited.now _ _) s
    rcases hstep.waits hw with hold | ⟨rfl, hl⟩
    · rcases (hstep.book s).next_cases htable p with hsame | hset
      · obtain ⟨next, hnext, hpos, hle⟩ := ih s p hold
        exact ⟨next, hsame.trans hnext, hpos, hstep.log_length_ge hcut hold hnext hle⟩
      · exact hset
    · -- the check has found a leader, and leaves it as it is
      refine ((booksOk_of_run (hrun.step hs) s).1 ?_).inRange p
      cases hstep with
      | idle hidle => exact absurd hl hidle
      | heartBeat => exact hl

/-- **Heartbeat goroutines index inside the log**, in every run in which no follower accepts a
request that leaves its log shorter than a `nextIndex` for which one of its goroutines waits: every
goroutine that has still to build its arguments finds `1 <= nextIndex[p] <= len(log)`, and building
them does not panic. -/
theorem buildsInRange (h : (cluster n C).Run tr st) (hD : Avoids (fun x a => cutsBelow x a) tr)
    {r : ℕ} {rd : Round n C} {p : Fin n} (hrd : st.rounds[r]? = some rd)
    (hc : rd.calls p = .spawned) :
    (∃ next, (st.rafts rd.leader).nextIndex[(p : ℕ)]? = some next ∧ 1 ≤ next ∧
      next ≤ ((st.rafts rd.leader).log.length : ℤ)) ∧
    ∃ st', (cluster n C).step st (.heartBeatArgs r p) = some st' := by
  have hrange := inRange_of_run h hD rd.leader p (Cluster.waits_iff.mpr ⟨r, rd, hrd, rfl, hc⟩)
  refine ⟨hrange, ?_⟩
  have hsome : ((st.rafts rd.leader).heartBeatArgs rd.leader p).isSome :=
    Raft.isSome_heartBeatArgs_iff.mpr hrange
  obtain ⟨args, hargs⟩ := Option.isSome_iff_exists.mp hsome
  refine ⟨st.setRound r { rd with calls := Function.update rd.calls p (.requested args) }, ?_⟩
  change st.heartBeatArgs r p = _
  simp [Cluster.heartBeatArgs, hrd, hc, hargs]

/-- The goroutine of 0 for 2 waits while 0 is demoted and takes a request of 1 that cuts its log
back to the placeholder. `nextIndex[2]` is 1, so the goroutine finds it in range all the same. -/
theorem buildsInRange_run : ∃ tr st, (cluster 3 ℕ).Run tr st ∧
    Avoids (fun x a => cutsBelow x a) tr ∧ (st.rafts 0).state = .follower ∧
    (st.rafts 0).log = [⟨0, 0⟩] ∧ st.waits 0 2 ∧
    ∃ next, (st.rafts 0).nextIndex[2]? = some next ∧ 1 ≤ next ∧ next ≤ 1 := by
  obtain ⟨tr, st, h, hD, hs, hlog, rd, hrd, hl, hc⟩ := (cluster 3 ℕ).exists_run_of_exec
    [.timer 0, .attemptEletion 0, .requestVote 0 1, .voteReply 0 1, .heartBeat 0, .start 0 10,
      .timer 1, .attemptEletion 1, .requestVote 1 2, .voteReply 1 2, .heartBeat 1, .heartBeat 1,
      .heartBeatArgs 1 0, .heartBeatArgs 2 0, .appendEntries 1 0, .appendEntries 2 0]
    (fun tr st => Avoids (fun x a => cutsBelow x a) tr ∧ (st.rafts 0).state = .follower ∧
      (st.rafts 0).log = [⟨0, 0⟩] ∧
      ∃ rd ∈ st.rounds[0]?, rd.leader = 0 ∧ (rd.calls 2).isSpawned) (by decide)
  have hspawned := Rpc.isSpawned_iff.mp hc
  obtain ⟨hrange, -⟩ := buildsInRange h hD hrd hspawned
  rw [hl, hlog] at hrange
  exact ⟨tr, st, h, hD, hs, hlog, Cluster.waits_iff.mpr ⟨0, rd, hrd, hl, hspawned⟩, hrange⟩

/-- A run into the panic. 0 leads term 1 and 1 has taken an empty heartbeat of it; `Start` appends
an entry, and the answer of 1 sets `nextIndex[1]` to 2. `HeartBeat` checks the role and spawns its
goroutines. Then 2 elects 1 in term 2, whose first request demotes 0 and whose second one cuts the
log of 0 back to the placeholder. The goroutine for 1 still finds `nextIndex[1]` = 2, and
`rf.log[1]` is out of range. -/
theorem buildsInRange_fails : ∃ tr st, (cluster 3 ℕ).Run tr st ∧
    ∃ rd ∈ st.rounds[1]?, rd.leader = 0 ∧ (rd.calls 1).isSpawned ∧
      (st.rafts 0).nextIndex[1]? = some 2 ∧ (st.rafts 0).log.length = 1 ∧
      ((cluster 3 ℕ).step st (.heartBeatArgs 1 1)).isNone :=
  (cluster 3 ℕ).exists_run_of_exec
    [.timer 0, .attemptEletion 0, .requestVote 0 1, .voteReply 0 1, .heartBeat 0,
      .heartBeatArgs 0 1, .appendEntries 0 1, .start 0 10, .heartBeatReply 0 1, .heartBeat 0,
      .timer 1, .attemptEletion 1, .requestVote 1 2, .voteReply 1 2, .heartBeat 1, .heartBeat 1,
      .heartBeatArgs 2 0, .heartBeatArgs 3 0, .appendEntries 2 0, .appendEntries 3 0]
    (fun _ st => ∃ rd ∈ st.rounds[1]?, rd.leader = 0 ∧ (rd.calls 1).isSpawned ∧
      (st.rafts 0).nextIndex[1]? = some 2 ∧ (st.rafts 0).log.length = 1 ∧
      ((cluster 3 ℕ).step st (.heartBeatArgs 1 1)).isNone) (by decide)

end Runs

end GoLabs.Consensus
