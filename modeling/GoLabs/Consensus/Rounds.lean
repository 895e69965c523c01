import GoLabs.Consensus.Election

/-!
# Rounds of heartbeats

Every round of heartbeats stays in the state of the cluster with its calls, so the requests ever
sent and the answers ever given can be read off it. The values a request carries are those of the
sender's state when it was built; `Built` finds that state in the trace, and with it the sender's
whole log at that moment, of which the request carries only the last part.
-/

namespace GoLabs.Consensus

open GoLabs.Lib

variable {n : ℕ} {C : Type}

/-! ## Accepting a request -/

/-- The follower takes the request: not older than its own term, and the previous entry is there.
Source: `raft.go` `AppendEntries` -/
def Raft.accepts (rf : Raft n C) (args : AppendEntriesArgs n C) : Bool :=
  rf.state = .follower ∧ rf.currentTerm ≤ args.term ∧
    (Slice.get? rf.log args.prevLogIndex).any fun prev => prev.term = args.prevLogTerm

/-- A request is taken by a follower of no higher term whose log has the previous entry. -/
lemma Raft.accepts_iff {rf : Raft n C} {args : AppendEntriesArgs n C} :
    rf.accepts args ↔ rf.state = .follower ∧ rf.currentTerm ≤ args.term ∧
      0 ≤ args.prevLogIndex ∧
        ∃ prev, rf.log[args.prevLogIndex.toNat]? = some prev ∧ prev.term = args.prevLogTerm := by
  simp only [accepts, decide_eq_true_eq, Option.any_eq_true, Slice.get?_eq_some_iff]
  refine and_congr_right fun _ => and_congr_right fun _ => ?_
  constructor
  · rintro ⟨prev, ⟨h0, hp⟩, ht⟩
    exact ⟨h0, prev, hp, ht⟩
  · rintro ⟨h0, prev, hp, ht⟩
    exact ⟨prev, ⟨h0, hp⟩, ht⟩

/-- A follower answers success exactly when it takes the request. -/
lemma Raft.appendEntries_success {rf rf' : Raft n C} {args : AppendEntriesArgs n C}
    {reply : AppendEntriesReply} (hs : rf.state = .follower)
    (h : rf.appendEntries args = some (rf', reply)) (hr : reply.success = true) :
    rf.accepts args ∧ rf' = { rf with currentTerm := args.term }.accept args := by
  rw [Raft.appendEntries, if_neg (not_not.mpr hs)] at h
  dsimp only at h
  split_ifs at h with ht hi
  · obtain ⟨rfl, rfl⟩ := Prod.mk.inj (Option.some.inj h)
    cases hr
  · rw [Option.map_eq_some_iff] at h
    obtain ⟨prev, hp, h⟩ := h
    obtain ⟨h0, hp⟩ := Slice.get?_eq_some_iff.mp hp
    split_ifs at h with hpt
    · obtain ⟨rfl, rfl⟩ := Prod.mk.inj h
      cases hr
    · obtain ⟨rfl, rfl⟩ := Prod.mk.inj h
      exact ⟨Raft.accepts_iff.mpr ⟨hs, ht, h0, prev, hp, not_not.mp hpt⟩, rfl⟩
  · obtain ⟨rfl, rfl⟩ := Prod.mk.inj (Option.some.inj h)
    cases hr

/-- The length of the log after an accepted request. -/
lemma accept_log_length (rf : Raft n C) {args : AppendEntriesArgs n C} {prev : LogEntry C}
    (hi : 0 ≤ args.prevLogIndex) (hp : rf.log[args.prevLogIndex.toNat]? = some prev) :
    ((rf.accept args).log.length : ℤ) = args.prevLogIndex + 1 + args.entries.length := by
  have hlt := (List.getElem?_eq_some_iff.mp hp).1
  rw [Raft.accept_log, List.length_append, List.length_take, min_eq_left (by omega)]
  omega

/-- The length of the log that an accepted request leaves. -/
lemma Raft.log_length_of_accepts {rf : Raft n C} {args : AppendEntriesArgs n C}
    (h : rf.accepts args) (T : ℕ) : (({ rf with currentTerm := T }.accept args).log.length : ℤ) =
      args.prevLogIndex + 1 + args.entries.length := by
  obtain ⟨-, -, h0, prev, hprev, -⟩ := Raft.accepts_iff.mp h
  exact accept_log_length { rf with currentTerm := T } h0 hprev

/-- What a follower does with a request that it takes. -/
lemma Raft.appendEntries_of_accepts {rf : Raft n C} {args : AppendEntriesArgs n C}
    (h : rf.accepts args) : rf.appendEntries args =
      some ({ rf with currentTerm := args.term }.accept args, ⟨args.term, true⟩) := by
  obtain ⟨hs, ht, h0, prev, hprev, hpt⟩ := Raft.accepts_iff.mp h
  have hlt := (List.getElem?_eq_some_iff.mp hprev).1
  have hget : Slice.get? rf.log args.prevLogIndex = some prev :=
    Slice.get?_eq_some_iff.mpr ⟨h0, hprev⟩
  rw [Raft.appendEntries, if_neg (not_not.mpr hs), if_pos ht]
  dsimp only
  rw [if_neg (by omega), hget, Option.map_some, if_neg (not_not.mpr hpt)]

/-- What a follower does with a request of its own term or a higher one that it does not take. -/
lemma Raft.appendEntries_of_not_accepts {rf : Raft n C} {args : AppendEntriesArgs n C}
    (hs : rf.state = .follower) (ht : rf.currentTerm ≤ args.term) (h0 : 0 ≤ args.prevLogIndex)
    (h : ¬ rf.accepts args) : rf.appendEntries args =
      some ({ rf with currentTerm := args.term }, ⟨args.term, false⟩) := by
  rw [Raft.appendEntries, if_neg (not_not.mpr hs), if_pos ht]
  dsimp only
  split_ifs with hlen
  · rfl
  · obtain ⟨prev, hprev⟩ : ∃ prev, Slice.get? rf.log args.prevLogIndex = some prev :=
      Option.isSome_iff_exists.mp (Slice.isSome_get?_iff.mpr ⟨h0, not_le.mp hlen⟩)
    have hne : prev.term ≠ args.prevLogTerm := by
      intro hpt
      exact h (Raft.accepts_iff.mpr ⟨hs, ht, h0, prev, (Slice.get?_eq_some_iff.mp hprev).2, hpt⟩)
    rw [hprev, Option.map_some, if_pos hne]

/-! ## How the record of the rounds grows -/

/-- **Where the round at position `r` of the state after a step comes from.** -/
inductive RoundStep (st : Cluster n C) (a : Action n C) (st' : Cluster n C) (r : ℕ) :
    Round n C → Prop
  | old {rd : Round n C} (h : st.rounds[r]? = some rd) : RoundStep st a st' r rd
  | new {s : Fin n} (ha : a = .heartBeat s) (hs : (st.rafts s).state = .leader) :
      RoundStep st a st' r ⟨s, 1, false, Cluster.spawn s .spawned⟩
  | built {p : Fin n} {rd : Round n C} {args : AppendEntriesArgs n C}
      (ha : a = .heartBeatArgs r p) (hrd : st.rounds[r]? = some rd) (hc : rd.calls p = .spawned)
      (hargs : (st.rafts rd.leader).heartBeatArgs rd.leader p = some args) :
      RoundStep st a st' r { rd with calls := Function.update rd.calls p (.requested args) }
  /-- A success comes from a follower that took the request, or from a peer that stepped down. -/
  | answered {p : Fin n} {rd : Round n C} {args : AppendEntriesArgs n C}
      {reply : AppendEntriesReply} (ha : a = .appendEntries r p)
      (hrd : st.rounds[r]? = some rd) (hc : rd.calls p = .requested args)
      (hr : reply.success = true → (st.rafts p).state ≠ .follower ∧
          (st.rafts p).currentTerm ≤ args.term ∨ (st.rafts p).accepts args ∧
          st'.rafts p = { st.rafts p with currentTerm := args.term }.accept args) :
      RoundStep st a st' r { rd with calls := Function.update rd.calls p (.replied args reply) }
  /-- The sender handled an answer. -/
  | returned {p : Fin n} {rd : Round n C} {args : AppendEntriesArgs n C}
      {reply : AppendEntriesReply} {count : ℕ} {done : Bool} (ha : a = .heartBeatReply r p)
      (hrd : st.rounds[r]? = some rd) (hc : rd.calls p = .replied args reply)
      (hcount : count ≤ if reply.success then rd.count + 1 else rd.count) :
      RoundStep st a st' r { rd with
        count := count
        done := done
        calls := Function.update rd.calls p (.returned args reply) }

/-- A round after a step that changes one of them is that one or was there before. -/
lemma RoundStep.of_set {st st' : Cluster n C} {a : Action n C} {r r' : ℕ} {rd rd' : Round n C}
    (h : RoundStep st a st' r' rd') (hrd : (st.rounds.set r' rd')[r]? = some rd) :
    RoundStep st a st' r rd := by
  rw [List.getElem?_set] at hrd
  split_ifs at hrd with heq hlt
  · cases hrd
    exact heq ▸ h
  · exact .old hrd

/-- **Every round after a step comes from the one before it, or is new.** -/
theorem Step.round {st st' : Cluster n C} {a : Action n C} (h : Step st a st') {r : ℕ}
    {rd : Round n C} (hrd : st'.rounds[r]? = some rd) : RoundStep st a st' r rd := by
  cases h with
  | heartBeat hs =>
      rw [List.getElem?_append] at hrd
      split_ifs at hrd with hlt
      · exact .old hrd
      · rw [List.getElem?_singleton] at hrd
        split_ifs at hrd
        cases hrd
        exact .new rfl hs
  | heartBeatArgs hr hc ha => exact .of_set (.built rfl hr hc ha) hrd
  | appendDemote hr hc hs ht =>
      exact .of_set (.answered rfl hr hc fun _ => Or.inl ⟨hs, ht⟩) hrd
  | appendStale hr hc ht => exact .of_set (.answered rfl hr hc (by simp)) hrd
  | appendReject hr hc hs ht => exact .of_set (.answered rfl hr hc (by simp)) hrd
  | appendAccept hr hc hs ht hi hp hpt =>
      refine .of_set (.answered rfl hr hc fun _ => Or.inr ⟨?_, by simp⟩) hrd
      exact Raft.accepts_iff.mpr ⟨hs, ht, hi, _, hp, hpt⟩
  | beatDemote hr hc hf ht => exact .of_set (.returned rfl hr hc (by simp [hf])) hrd
  | beatBackUp hr hc hf ht hn => exact .of_set (.returned rfl hr hc (by simp [hf])) hrd
  | beatCount hr hc hf hn hm hd => exact .of_set (.returned rfl hr hc (by simp [hf])) hrd
  | beatCommit hr hc hf hn hm hd hq => exact .of_set (.returned rfl hr hc (by simp [hf])) hrd
  | _ => exact .old hrd

/-! ## Requests and the state they were built in -/

/-- The request `args` of round `r` from `s` to `p` was built in state `x`. -/
structure BuiltIn (tr : Trace n C) (r : ℕ) (p s : Fin n) (args : AppendEntriesArgs n C)
    (x : Cluster n C) : Prop where
  mem : (x, .heartBeatArgs r p) ∈ tr
  /-- The round is one of `s`. -/
  sender : x.rounds[r]?.map Round.leader = some s
  eq : (x.rafts s).heartBeatArgs s p = some args

/-- The state in which a request was built is one of the run. -/
lemma BuiltIn.visited {tr : Trace n C} {r : ℕ} {p s : Fin n} {args : AppendEntriesArgs n C}
    {x : Cluster n C} (h : BuiltIn tr r p s args x) (st : Cluster n C) : Visited tr st x :=
  Or.inr ⟨_, h.mem⟩

/-- A request that was built in a run was built in a longer one. -/
lemma BuiltIn.mono {tr tr' : Trace n C} {r : ℕ} {p s : Fin n} {args : AppendEntriesArgs n C}
    {x : Cluster n C} (h : BuiltIn tr r p s args x) (htr : tr ⊆ tr') : BuiltIn tr' r p s args x :=
  ⟨htr h.mem, h.sender, h.eq⟩

/-- Every request ever sent was built in some state of the run, and the sender does not write to
itself. -/
def Built (tr : Trace n C) (st : Cluster n C) : Prop :=
  ∀ r rd, st.rounds[r]? = some rd → rd.calls rd.leader = .idle ∧
    ∀ p args, (rd.calls p).args? = some args → ∃ x, BuiltIn tr r p rd.leader args x

/-- Replacing one call by a later stage of the same call keeps its request. -/
lemma Built.of_update {rd : Round n C} {p : Fin n}
    {call : Rpc (AppendEntriesArgs n C) AppendEntriesReply}
    {P : Fin n → AppendEntriesArgs n C → Prop} (hself : rd.calls rd.leader = .idle)
    (hne : rd.calls p ≠ .idle)
    (hP : ∀ q args, (rd.calls q).args? = some args → P q args)
    (hp : ∀ args, call.args? = some args → P p args) :
    Function.update rd.calls p call rd.leader = .idle ∧
      ∀ q args, (Function.update rd.calls p call q).args? = some args → P q args := by
  have hlp : rd.leader ≠ p := fun h => hne (h ▸ hself)
  refine ⟨by simpa [hlp] using hself, fun q args hq => ?_⟩
  by_cases hqp : q = p
  · subst hqp
    exact hp args (by simpa using hq)
  · exact hP q args (by simpa [hqp] using hq)

section Runs

variable [Inhabited C] {tr : Trace n C} {st : Cluster n C}

/-- **Every request was built in some state of the run.** -/
theorem built_of_run (h : (cluster n C).Run tr st) : Built tr st := by
  induction h with
  | init =>
      intro r rd hrd
      simp [cluster, Cluster.make] at hrd
  | @step tr x y a h hs ih =>
      -- what was built before is still in the longer trace
      have hold : ∀ {r p s args}, (∃ z, BuiltIn tr r p s args z) →
          ∃ z, BuiltIn ((x, a) :: tr) r p s args z :=
        Exists.imp fun _ hz => hz.mono (List.subset_cons_self _ _)
      intro r rd hy
      cases (Step.of_cluster hs).round hy with
      | old hrd => exact ⟨(ih r rd hrd).1, fun p args hp => hold ((ih r rd hrd).2 p args hp)⟩
      | @new s ha hl =>
          refine ⟨by simp [Cluster.spawn], fun p args hp => ?_⟩
          simp only [Cluster.spawn] at hp
          split_ifs at hp <;> cases hp
      | @built p rd args ha hrd hc hargs =>
          obtain ⟨hself, hb⟩ := ih r rd hrd
          refine Built.of_update hself (by simp [hc]) (fun q args hq => hold (hb q args hq)) ?_
          rintro args' h'
          cases h'
          exact ⟨x, ha ▸ List.mem_cons_self, by simp [hrd], hargs⟩
      | @answered p rd args reply ha hrd hc hr =>
          obtain ⟨hself, hb⟩ := ih r rd hrd
          refine Built.of_update hself (by simp [hc]) (fun q args hq => hold (hb q args hq)) ?_
          rintro args' h'
          cases h'
          exact hold (hb p args (by simp [hc]))
      | @returned p rd args reply count done ha hrd hc hcount =>
          obtain ⟨hself, hb⟩ := ih r rd hrd
          refine Built.of_update hself (by simp [hc]) (fun q args hq => hold (hb q args hq)) ?_
          rintro args' h'
          cases h'
          exact hold (hb p args (by simp [hc]))

end Runs

end GoLabs.Consensus
