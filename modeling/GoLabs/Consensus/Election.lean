import GoLabs.Consensus.Votes

/-!
# Elections and leaders

* `ElectionOk` — what holds of every election on record: all calls carry its request, the candidate
  does not ask itself, and `votes` counts no more than the answers handled.
* `becomesLeader x a s` — in this step `s` executes `conevrtToLeader`. The candidate then has the
  votes of a majority in its term (`won_of_becomesLeader`), whatever happened before.
* `raisesLeader` — a `RequestVote` of a higher term reaches a leader. The handler raises the term
  and leaves the role: the peer goes on as leader of a term it was never elected in. Apart from
  that step, a leader has been promoted in the very term it is in (`Promoted`).

**Election safety** fails because of `raisesLeader`, where two peers are enough, and again because
of the vote that `forgetsVote` frees (`electionSafety_fails`); without these two steps it holds
(`electionSafety`), and a term has one winner for ever (`Won.unique`).

**Only the elected leader of a term writes for it** fails for `raisesLeader` and because a
goroutine of `HeartBeat` reads `currentTerm` in another critical section than the one that
checked the role (`buildsStale`); without these two steps it holds (`leader_of_sent`).
-/

namespace GoLabs.Consensus

open GoLabs.Lib

variable {n : ℕ} {C : Type}

/-! ## The elections on record -/

/-- The peers whose vote the candidate has counted. -/
def Election.counted (el : Election n) : Finset (Fin n) :=
  Rpc.counted RequestVoteReply.voteGranted el.calls

/-- What holds of every election on record. -/
structure ElectionOk (st : Cluster n C) (el : Election n) : Prop where
  /-- Every goroutine sends the request of the election. -/
  args_eq : ∀ p args, (el.calls p).args? = some args → args = el.args
  /-- The candidate does not ask itself. -/
  self_idle : el.calls el.args.candidateId = .idle
  /-- `votes` is the candidate's own vote and the votes counted. -/
  votes_le : el.votes ≤ el.counted.card + 1
  /-- The candidate has reached the term. -/
  term_le : el.args.term ≤ (st.rafts el.args.candidateId).currentTerm
  /-- As long as the candidate stands for the term, the request describes its log. -/
  lastLog : (st.rafts el.args.candidateId).currentTerm = el.args.term →
    (st.rafts el.args.candidateId).state = .candidate →
      el.args.lastLogIndex = (st.rafts el.args.candidateId).lastLogIndex ∧
        (st.rafts el.args.candidateId).lastLogTerm? = some el.args.lastLogTerm

/-- A candidate that is still one after a step, in the same term, has the same log. -/
lemma PeerStep.log_eq_of_candidate {st : Cluster n C} {a : Action n C} {s : Fin n} {rf : Raft n C}
    (h : PeerStep st a s rf) (ht : rf.currentTerm = (st.rafts s).currentTerm)
    (hs : rf.state = .candidate) : (st.rafts s).state = .candidate ∧ rf.log = (st.rafts s).log := by
  cases h with
  | quiet term voted state log => exact ⟨state ▸ hs, log⟩
  | candidate => simp at ht
  | raise => exact ⟨by simpa using hs, by simp⟩
  | vote => exact ⟨by simpa using hs, by simp⟩
  | demote => cases hs
  | stepDown => cases hs
  | promote => cases hs
  | follow ha hrd hc hf => rw [show (st.rafts s).state = .candidate from hs] at hf; cases hf
  | accept ha hrd hc hf => rw [show (st.rafts s).state = .candidate from hs] at hf; cases hf
  | commit => exact ⟨hs, rfl⟩
  | start ha hl => rw [show (st.rafts s).state = .candidate from hs] at hl; cases hl
  | apply => exact ⟨hs, rfl⟩

/-- An election on record keeps its properties while the peers move on. -/
lemma ElectionOk.mono {st st' : Cluster n C} {a : Action n C} {el : Election n}
    (h : ElectionOk st el) (hs : Step st a st') : ElectionOk st' el := by
  have hp := hs.peer el.args.candidateId
  have hle := hp.term_le
  refine ⟨h.args_eq, h.self_idle, h.votes_le, h.term_le.trans hle, fun hT hc => ?_⟩
  have hT₀ : (st.rafts el.args.candidateId).currentTerm = el.args.term :=
    le_antisymm (hT ▸ hle) h.term_le
  obtain ⟨hc₀, hlog⟩ := hp.log_eq_of_candidate (hT.trans hT₀.symm) hc
  obtain ⟨hi, hl⟩ := h.lastLog hT₀ hc₀
  simp only [Raft.lastLogTerm?, Raft.lastLogIndex, hlog]
  exact ⟨hi, hl⟩

/-- Replacing the answer of a peer other than the candidate, and counting no vote that is not
there, keeps an election in order. -/
lemma ElectionOk.update {st : Cluster n C} {el : Election n} (h : ElectionOk st el) {p : Fin n}
    {call : Rpc (RequestVoteArgs n) RequestVoteReply} {votes : ℕ} {done : Bool}
    (hp : el.calls p ≠ .idle) (hargs : ∀ args, call.args? = some args → args = el.args)
    (hv : votes ≤
      ({ el with calls := Function.update el.calls p call } : Election n).counted.card + 1) :
    ElectionOk st { el with
      votes := votes, done := done, calls := Function.update el.calls p call } := by
  have hne : el.args.candidateId ≠ p := fun heq => hp (heq ▸ h.self_idle)
  refine ⟨fun q args hq => ?_, ?_, hv, h.term_le, h.lastLog⟩
  · by_cases hqp : q = p
    · subst hqp
      simp only [Function.update_self] at hq
      exact hargs args hq
    · simp only [ne_eq, hqp, not_false_eq_true, Function.update_of_ne] at hq
      exact h.args_eq q args hq
  · simpa [hne] using h.self_idle

/-- An answer that the candidate has not yet handled keeps an election in order. -/
lemma ElectionOk.replied {st : Cluster n C} {el : Election n} (h : ElectionOk st el) {p : Fin n}
    {args : RequestVoteArgs n} (hc : el.calls p = .requested args) (reply : RequestVoteReply) :
    ElectionOk st
      { el with calls := Function.update el.calls p (.replied args reply) } := by
  refine h.update (by simp [hc]) (fun args' h' => ?_) ?_
  · cases h'
    exact h.args_eq p args (by simp [hc])
  · exact h.votes_le.trans (Nat.add_le_add_right
      (Finset.card_le_card (Rpc.counted_subset_update (by simp [hc]))) 1)

/-- Every election on record is in order. -/
def ElectionsOk (st : Cluster n C) : Prop := ∀ el ∈ st.elections, ElectionOk st el

/-- One step keeps the elections in order. -/
lemma ElectionsOk.step {st st' : Cluster n C} {a : Action n C} (h : ElectionsOk st)
    (hs : Step st a st') : ElectionsOk st' := by
  intro el hel
  cases hs.election hel with
  | old hm => exact (h el hm).mono hs
  | @new s t args ha ht hargs hst =>
      subst hargs
      refine ⟨fun p args hp => ?_, by simp [Cluster.spawn], by simp, ?_, fun _ _ => ?_⟩
      · simp only [Cluster.spawn] at hp
        split_ifs at hp
        · cases hp
        · exact (Option.some.inj hp).symm
      · simp [hst]
      · simp only [hst]
        exact ⟨rfl, ht⟩
  | refused ha hm hc hr => exact ((h _ hm).mono hs).replied hc _
  | granted ha hm hc hg => exact ((h _ hm).mono hs).replied hc _
  | @returned e p el args reply votes done ha hm hc hv =>
      have hok := (h el hm).mono hs
      refine hok.update (by simp [hc]) (fun args' h' => ?_) (hv.trans ?_)
      · cases h'
        exact hok.args_eq p args (by simp [hc])
      · split_ifs with hg
        · exact Nat.add_le_add_right (hok.votes_le.trans (Rpc.card_counted_returned hc hg)) 1
        · exact hok.votes_le.trans (Nat.add_le_add_right
            (Finset.card_le_card (Rpc.counted_subset_update (by simp [hc]))) 1)

/-! ## Votes are never lost -/

/-- An election on record stays on record, with the answers it has. -/
lemma Step.election_mono {st st' : Cluster n C} {a : Action n C} (h : Step st a st')
    {el : Election n} (hel : el ∈ st.elections) :
    ∃ el' ∈ st'.elections, el'.args = el.args ∧
      ∀ v ar, (el.calls v).answer? = some ar → (el'.calls v).answer? = some ar := by
  -- an election that is replaced in the list is replaced by one that knows at least as much
  have hset : ∀ {e : ℕ} {el₀ el₁ : Election n}, st.elections[e]? = some el₀ →
      el₁.args = el₀.args →
      (∀ v ar, (el₀.calls v).answer? = some ar → (el₁.calls v).answer? = some ar) →
      ∃ el' ∈ st.elections.set e el₁, el'.args = el.args ∧
        ∀ v ar, (el.calls v).answer? = some ar → (el'.calls v).answer? = some ar := by
    intro e el₀ el₁ he hargs hans
    obtain ⟨i, hi, rfl⟩ := List.mem_iff_getElem.mp hel
    by_cases hie : i = e
    · subst hie
      rw [List.getElem?_eq_getElem hi, Option.some.injEq] at he
      subst he
      exact ⟨el₁, List.mem_set hi _, hargs, hans⟩
    · refine ⟨st.elections[i], ?_, rfl, fun _ _ h => h⟩
      exact List.mem_iff_getElem.mpr ⟨i, by simpa using hi, by simp [Ne.symm hie]⟩
  -- replacing one call by one with the same answer, or by the first answer
  have hcall : ∀ {el₀ : Election n} {p : Fin n}
      {call : Rpc (RequestVoteArgs n) RequestVoteReply},
      (∀ ar, (el₀.calls p).answer? = some ar → call.answer? = some ar) →
      ∀ v ar, (el₀.calls v).answer? = some ar →
        (Function.update el₀.calls p call v).answer? = some ar := by
    intro el₀ p call hc v ar hv
    by_cases hvp : v = p
    · subst hvp
      simpa using hc ar hv
    · simpa [hvp] using hv
  cases h with
  | attemptEletion => exact ⟨el, List.mem_append_left _ hel, rfl, fun _ _ h => h⟩
  | voteStale he hc => exact hset he rfl (hcall (by simp [hc]))
  | voteRefused he hc => exact hset he rfl (hcall (by simp [hc]))
  | voteGranted he hc => exact hset he rfl (hcall (by simp [hc]))
  | voteDemote he hc => exact hset he rfl (hcall (by simp [hc]))
  | voteCount he hc => exact hset he rfl (hcall (by simp [hc]))
  | promote he hc => exact hset he rfl (hcall (by simp [hc]))
  | _ => exact ⟨el, hel, rfl, fun _ _ h => h⟩

/-- A vote on record stays on record. -/
lemma GaveVote.step {st st' : Cluster n C} {a : Action n C} (h : Step st a st') {v : Fin n}
    {T : ℕ} {c : Fin n} (hv : GaveVote st v T c) : GaveVote st' v T c := by
  rcases hv with ⟨el, hel, ar, har, hv⟩ | ⟨rfl, el, hel, rfl, rfl⟩
  · obtain ⟨el', hel', -, hans⟩ := h.election_mono hel
    exact Or.inl ⟨el', hel', ar, hans v ar har, hv⟩
  · obtain ⟨el', hel', hargs, -⟩ := h.election_mono hel
    exact Or.inr ⟨rfl, el', hel', by rw [hargs], by rw [hargs]⟩

/-- `s` has the votes of a majority in term `T`. -/
def Won (st : Cluster n C) (s : Fin n) (T : ℕ) : Prop :=
  ∃ Q : Finset (Fin n), Majority Q ∧ ∀ v ∈ Q, GaveVote st v T s

/-- Two winners of a term are the same peer, when nobody voted twice. -/
lemma Won.unique {st : Cluster n C} {s s' : Fin n} {T : ℕ} (ho : OneVotePerTerm st)
    (h : Won st s T) (h' : Won st s' T) : s = s' := by
  obtain ⟨Q, hQ, hv⟩ := h
  obtain ⟨Q', hQ', hv'⟩ := h'
  obtain ⟨v, hmem, hmem'⟩ := hQ.exists_mem_inter hQ'
  exact ho v T s s' (hv v hmem) (hv' v hmem')

/-! ## Promotion -/

/-- In this step `s` executes `conevrtToLeader`: only that function makes a leader. -/
def becomesLeader (st : Cluster n C) (a : Action n C) (s : Fin n) : Bool :=
  (st.step a).any fun st' => (st.rafts s).state ≠ .leader ∧ (st'.rafts s).state = .leader

/-- A peer becomes leader in a step that makes it one. -/
lemma becomesLeader_iff {st : Cluster n C} {a : Action n C} {s : Fin n} :
    becomesLeader st a s ↔
      ∃ st', st.step a = some st' ∧ (st.rafts s).state ≠ .leader ∧
        (st'.rafts s).state = .leader := by
  simp [becomesLeader, Option.any_eq_true]

/-- A peer that is a leader after a step was one before, or was promoted from candidate. -/
lemma PeerStep.leader_cases {st : Cluster n C} {a : Action n C} {s : Fin n} {rf : Raft n C}
    (h : PeerStep st a s rf) (hs : rf.state = .leader) :
    (st.rafts s).state = .leader ∨
      ((st.rafts s).state = .candidate ∧ rf = (st.rafts s).conevrtToLeader ∧
        ∃ e p el, a = .voteReply e p ∧ st.elections[e]? = some el ∧ el.args.candidateId = s ∧
          (st.rafts s).currentTerm = el.args.term) := by
  cases h with
  | quiet _ _ state => exact Or.inl (state ▸ hs)
  | candidate => cases hs
  | raise => exact Or.inl (by simpa using hs)
  | vote => exact Or.inl (by simpa using hs)
  | demote => cases hs
  | stepDown => cases hs
  | @promote e p el ha hel hcand hT hc => exact Or.inr ⟨hc, rfl, e, p, el, ha, hel, hcand, hT⟩
  | follow => exact Or.inl hs
  | accept => exact Or.inl hs
  | commit => exact Or.inl hs
  | start => exact Or.inl hs
  | apply => exact Or.inl hs

/-- **A promotion is backed by a majority of the term**: the candidate itself and the peers whose
answers the election has counted, the last one included. -/
theorem won_of_promote {st : Cluster n C} (hok : ElectionsOk st) {e : ℕ} {p : Fin n}
    {el : Election n} {args : RequestVoteArgs n} {reply : RequestVoteReply}
    (hel : st.elections[e]? = some el) (hc : el.calls p = .replied args reply)
    (hg : reply.voteGranted = true) (hm : n / 2 < el.votes + 1) :
    Won st el.args.candidateId el.args.term := by
  have hmem := List.mem_of_getElem? hel
  have ok := hok el hmem
  have hargs : args = el.args := ok.args_eq p args (by simp [hc])
  refine ⟨insert el.args.candidateId (insert p el.counted), ?_, fun v hv => ?_⟩
  · have hle := ok.votes_le
    rw [Majority, Fintype.card_fin, Election.counted, Rpc.card_insert_counted ok.self_idle hc]
    rw [Election.counted] at hle
    omega
  · rcases Finset.mem_insert.mp hv with rfl | hv
    · exact Or.inr ⟨rfl, el, hmem, rfl, rfl⟩
    · rcases Finset.mem_insert.mp hv with rfl | hv
      · exact Or.inl ⟨el, hmem, (args, reply), by simp [hc], hg, by rw [hargs], by rw [hargs]⟩
      · obtain ⟨args', reply', hv, hg'⟩ := Rpc.mem_counted.mp hv
        have hargs' : args' = el.args := ok.args_eq v args' (by simp [hv])
        exact Or.inl ⟨el, hmem, (args', reply'), by simp [hv], hg', by rw [hargs'],
          by rw [hargs']⟩

/-- `s` becomes leader only as a candidate that has the votes of a majority in its term. -/
theorem won_of_becomesLeader {st : Cluster n C} (hok : ElectionsOk st) {a : Action n C}
    {s : Fin n} (h : becomesLeader st a s) :
    (st.rafts s).state = .candidate ∧ Won st s (st.rafts s).currentTerm := by
  obtain ⟨st', hst, hnl, hl⟩ := becomesLeader_iff.mp h
  have hstep := Step.of_step hst
  rcases (hstep.peer s).leader_cases hl with hl' | ⟨hcand, hrf, e, p, el, rfl, hel, rfl, hT⟩
  · exact absurd hl' hnl
  · refine ⟨hcand, ?_⟩
    rw [hT]
    cases hstep with
    | idle h => exact h.elim
    | voteDemote hel' hc =>
        obtain rfl : el = _ := Option.some.inj (hel.symm.trans hel')
        simp at hl
    | voteCount hel' hc => exact absurd hl hnl
    | promote hel' hc ht hg hd hm =>
        obtain rfl : el = _ := Option.some.inj (hel.symm.trans hel')
        exact won_of_promote hok hel hc hg hm

/-! ## Leaders and their terms -/

/-- The step that goes wrong: a `RequestVote` of a higher term reaches a leader, which takes over
the term and stays leader.
Source: `raft.go` `RequestVote` -/
def raisesLeader (st : Cluster n C) : Action n C → Bool
  | .requestVote e p => (st.voteRequest? e p).any fun args =>
      (st.rafts p).state = .leader ∧ (st.rafts p).currentTerm < args.term
  | _ => false

/-- Apart from `raisesLeader`, a leader that stays one stays in its term, and only appends to its
log. -/
lemma PeerStep.of_leader {st : Cluster n C} {a : Action n C} {s : Fin n} {rf : Raft n C}
    (h : PeerStep st a s rf) (hs : (st.rafts s).state = .leader) (hs' : rf.state = .leader) :
    (st.rafts s).log <+: rf.log ∧
      (¬ raisesLeader st a → rf.currentTerm = (st.rafts s).currentTerm) := by
  have hraise : ∀ {e el args}, a = .requestVote e s → st.elections[e]? = some el →
      el.calls s = .requested args → (st.rafts s).currentTerm ≤ args.term →
      ¬ raisesLeader st a → ((st.rafts s).raiseTerm args.term).currentTerm =
        (st.rafts s).currentTerm := by
    intro e el args ha hel hc hle hr
    simp only [ha, raisesLeader, Cluster.voteRequest?_eq_some hel hc, Option.any_some, hs,
      true_and, decide_eq_true_eq, not_lt] at hr
    simp [hr]
  cases h with
  | quiet term _ _ log => exact ⟨by rw [log], fun _ => term⟩
  | candidate => cases hs'
  | raise ha hel hc hle => exact ⟨by simp, hraise ha hel hc hle⟩
  | vote ha hel hc hle => exact ⟨by simp, hraise ha hel hc hle⟩
  | demote => cases hs'
  | stepDown => cases hs'
  | promote ha hel hcand hT hc => rw [hs] at hc; cases hc
  | follow ha hrd hc hf => rw [hs] at hf; cases hf
  | accept ha hrd hc hf => rw [hs] at hf; cases hf
  | commit => exact ⟨List.prefix_rfl, fun _ => rfl⟩
  | start => exact ⟨List.prefix_append _ _, fun _ => rfl⟩
  | apply => exact ⟨List.prefix_rfl, fun _ => rfl⟩

/-- Every leader executed `conevrtToLeader` in the term it is in, with a log it has only appended
to since. -/
def Promoted (tr : Trace n C) (st : Cluster n C) : Prop :=
  ∀ s, (st.rafts s).state = .leader → ∃ x a, (x, a) ∈ tr ∧ becomesLeader x a s ∧
    (x.rafts s).currentTerm = (st.rafts s).currentTerm ∧ (x.rafts s).log <+: (st.rafts s).log

/-- The steps that can break an election: a leader takes over a higher term in place, or a vote is
forgotten within its term. -/
def electionSlip (st : Cluster n C) (a : Action n C) : Bool :=
  raisesLeader st a || forgetsVote st a

/-- Without the slips of an election no leader raises its term. -/
lemma avoids_raisesLeader {tr : Trace n C} (hD : Avoids (fun x a => electionSlip x a) tr) :
    Avoids (fun x a => raisesLeader x a) tr :=
  hD.mono fun x a h => by simp [electionSlip, h]

/-- Without the slips of an election no peer forgets its vote. -/
lemma avoids_forgetsVote {tr : Trace n C} (hD : Avoids (fun x a => electionSlip x a) tr) :
    Avoids (fun x a => forgetsVote x a) tr :=
  hD.mono fun x a h => by simp [electionSlip, h]

/-- What a built request says about its sender. -/
lemma Raft.heartBeatArgs_eq_some {rf : Raft n C} {me index : Fin n}
    {args : AppendEntriesArgs n C} (h : rf.heartBeatArgs me index = some args) :
    args.term = rf.currentTerm ∧ args.leaderId = me ∧ 0 ≤ args.prevLogIndex ∧
      (∃ prev, rf.log[args.prevLogIndex.toNat]? = some prev ∧ prev.term = args.prevLogTerm) ∧
      args.entries = rf.log.drop (args.prevLogIndex.toNat + 1) ∧
      args.leaderCommit = rf.commitIndex := by
  simp only [Raft.heartBeatArgs, Option.bind_eq_bind, Option.bind_eq_some_iff] at h
  obtain ⟨next, -, prev, hprev, entries, hent, h⟩ := h
  obtain ⟨h0, hprev⟩ := Slice.get?_eq_some_iff.mp hprev
  obtain ⟨-, rfl⟩ := Slice.from?_eq_some_iff.mp hent
  cases h
  have hnat : (next - 1).toNat + 1 = next.toNat := by omega
  exact ⟨rfl, rfl, h0, ⟨prev, hprev, rfl⟩, by rw [hnat], rfl⟩

section Runs

variable [Inhabited C] {tr : Trace n C} {st : Cluster n C}

/-- Every election of every run is in order. -/
theorem electionsOk_of_run (h : (cluster n C).Run tr st) : ElectionsOk st := by
  induction h with
  | init =>
      intro el hel
      simp [cluster, Cluster.make] at hel
  | step h hs ih => exact ih.step (Step.of_cluster hs)

/-- Votes once given are on record for the rest of the run. -/
lemma gaveVote_mono (h : (cluster n C).Run tr st) {x : Cluster n C} (hx : Visited tr st x)
    {v : Fin n} {T : ℕ} {c : Fin n} (hv : GaveVote x v T c) : GaveVote st v T c :=
  h.rel_of_visited (R := fun x y => GaveVote x v T c → GaveVote y v T c) (fun _ => id)
    (fun h₁ h₂ => h₂ ∘ h₁) (fun hs => GaveVote.step (Step.of_cluster hs)) hx hv

/-- Who has won at some moment of a run has won in the end. -/
lemma Won.mono (h : (cluster n C).Run tr st) {x : Cluster n C} (hx : Visited tr st x)
    {s : Fin n} {T : ℕ} (hw : Won x s T) : Won st s T := by
  obtain ⟨Q, hQ, hv⟩ := hw
  exact ⟨Q, hQ, fun v hmem => gaveVote_mono h hx (hv v hmem)⟩

/-- In a run without `raisesLeader` every leader was promoted in the term it is in. -/
theorem promoted_of_run (h : (cluster n C).Run tr st)
    (hD : Avoids (fun x a => raisesLeader x a) tr) : Promoted tr st := by
  refine System.Run.induction_avoiding (P := Promoted) ?_ ?_ h hD
  · intro s hs
    simp [cluster, Cluster.make, make] at hs
  · intro tr x a y hx hav ih hr hs s hl
    rcases ((Step.of_cluster hs).peer s).leader_cases hl with hl' | ⟨hcand, hrf, -⟩
    · obtain ⟨z, b, hz, hb, hT, hlog⟩ := ih s hl'
      obtain ⟨hlog', hT'⟩ := ((Step.of_cluster hs).peer s).of_leader hl' hl
      exact ⟨z, b, List.mem_cons_of_mem _ hz, hb, hT.trans (hT' hr).symm, hlog.trans hlog'⟩
    · refine ⟨x, a, List.mem_cons_self, becomesLeader_iff.mpr ⟨y, hs, by simp [hcand], hl⟩, ?_, ?_⟩
      · rw [hrf, Raft.conevrtToLeader_currentTerm]
      · rw [hrf, Raft.conevrtToLeader_log]

/-- A promotion of the trace has left its majority on record. -/
lemma won_of_mem (h : (cluster n C).Run tr st) {x : Cluster n C} {a : Action n C} {s : Fin n}
    (hx : (x, a) ∈ tr) (hb : becomesLeader x a s) : Won st s (x.rafts s).currentTerm := by
  obtain ⟨_, tr₂, _, -, hrun, -⟩ := h.of_mem hx
  exact (won_of_becomesLeader (electionsOk_of_run hrun) hb).2.mono h (Or.inr ⟨a, hx⟩)

/-- In a run without `raisesLeader` every leader has won the term it is in. -/
theorem won_of_leader (h : (cluster n C).Run tr st)
    (hD : Avoids (fun x a => raisesLeader x a) tr) {s : Fin n}
    (hs : (st.rafts s).state = .leader) : Won st s (st.rafts s).currentTerm := by
  obtain ⟨x, a, hx, hb, hT, -⟩ := promoted_of_run h hD s hs
  exact hT ▸ won_of_mem h hx hb

/-! ## Election safety -/

/-- **Election safety**: two peers that report to lead the same term are the same peer, in every
run in which no `RequestVote` of a higher term reaches a leader and no `AppendEntries` of its own
term reaches a candidate or leader that has voted. -/
theorem electionSafety (h : (cluster n C).Run tr st)
    (hD : Avoids (fun x a => electionSlip x a) tr) (s s' : Fin n) (T : ℕ)
    (hs : (st.rafts s).getState = (T, true)) (hs' : (st.rafts s').getState = (T, true)) :
    s = s' := by
  simp only [Raft.getState, Prod.mk.injEq, beq_iff_eq] at hs hs'
  obtain ⟨rfl, hl⟩ := hs
  obtain ⟨hT, hl'⟩ := hs'
  have hw := won_of_leader h (avoids_raisesLeader hD) hl
  have hw' := won_of_leader h (avoids_raisesLeader hD) hl'
  rw [hT] at hw'
  exact hw.unique (votes_of_run h (avoids_forgetsVote hD)).2 hw'

/-- Peer 0 is elected by peer 2 against peer 1, and is the leader of term 1 alone. -/
theorem electionSafety_run : ∃ tr st, (cluster 3 ℕ).Run tr st ∧
    Avoids (fun x a => electionSlip x a) tr ∧ (st.rafts 0).getState = (1, true) ∧
    ∀ s, (st.rafts s).getState = (1, true) → s = 0 := by
  obtain ⟨tr, st, h, hD, h0⟩ := (cluster 3 ℕ).exists_run_of_exec
    [.timer 0, .attemptEletion 0, .timer 1, .attemptEletion 1, .requestVote 0 2, .voteReply 0 2,
      .heartBeat 0, .heartBeatArgs 0 2, .appendEntries 0 2]
    (fun tr st => Avoids (fun x a => electionSlip x a) tr ∧
      (st.rafts 0).getState = (1, true)) (by decide)
  exact ⟨tr, st, h, hD, h0, fun s hs => electionSafety h hD s 0 1 hs h0⟩

/-- Two runs with two leaders of one term, each with only one of the two slips. In the first, 1
elects 0 in term 1 and then stands for term 2 itself; 0 votes for it, takes over term 2 and stays
leader. In the second, 2 is still a candidate when it votes for 0 in term 2; the heartbeat of 0
makes it forget the vote, and it elects 1 in term 2 as well. -/
theorem electionSafety_fails :
    (∃ tr st, (cluster 2 ℕ).Run tr st ∧ Avoids (fun x a => forgetsVote x a) tr ∧
      (st.rafts 0).getState = (2, true) ∧ (st.rafts 1).getState = (2, true)) ∧
    ∃ tr st, (cluster 3 ℕ).Run tr st ∧ Avoids (fun x a => raisesLeader x a) tr ∧
      (st.rafts 0).getState = (2, true) ∧ (st.rafts 1).getState = (2, true) := by
  constructor
  · exact (cluster 2 ℕ).exists_run_of_exec
      [.timer 0, .attemptEletion 0, .requestVote 0 1, .voteReply 0 1,
        .timer 1, .attemptEletion 1, .requestVote 1 0, .voteReply 1 0]
      (fun tr st => Avoids (fun x a => forgetsVote x a) tr ∧
        (st.rafts 0).getState = (2, true) ∧ (st.rafts 1).getState = (2, true)) (by decide)
  · exact (cluster 3 ℕ).exists_run_of_exec
      [.timer 2, .attemptEletion 2, .timer 0, .attemptEletion 0, .timer 0, .attemptEletion 0,
        .timer 1, .attemptEletion 1, .timer 1, .attemptEletion 1, .requestVote 2 2,
        .voteReply 2 2, .heartBeat 0, .heartBeatArgs 0 2, .appendEntries 0 2,
        .requestVote 4 2, .voteReply 4 2]
      (fun tr st => Avoids (fun x a => raisesLeader x a) tr ∧
        (st.rafts 0).getState = (2, true) ∧ (st.rafts 1).getState = (2, true)) (by decide)

/-! ## Who writes for a term -/

/-- The step that goes wrong: a goroutine of `HeartBeat` builds its arguments when its peer does
not lead any more.
Source: `raft.go` `HeartBeat` -/
def buildsStale (st : Cluster n C) : Action n C → Bool
  | .heartBeatArgs r _ => st.rounds[r]?.any fun rd => (st.rafts rd.leader).state ≠ .leader
  | _ => false

/-- The steps that let a peer write for a term it does not lead. -/
def writeSlip (st : Cluster n C) (a : Action n C) : Bool :=
  raisesLeader st a || buildsStale st a

/-- **Only the elected leader of a term writes for it**: a request that is sent with term `T` and
sender `s` comes after `s` became leader in term `T`. This holds in every run in which no
`RequestVote` of a higher term reaches a leader and every request is built by a peer that is still
leader. -/
theorem leader_of_sent {st' : Cluster n C} {r : ℕ} {p : Fin n} (h : (cluster n C).Run tr st)
    (hD : Avoids (fun x a => writeSlip x a) ((st, .heartBeatArgs r p) :: tr))
    (hs : (cluster n C).step st (.heartBeatArgs r p) = some st') (args : AppendEntriesArgs n C)
    (hargs : st'.beatRequest? r p = some args) :
    ∃ x a, (x, a) ∈ tr ∧ becomesLeader x a args.leaderId ∧
      (x.rafts args.leaderId).currentTerm = args.term := by
  have hnot := hD.head
  cases Step.of_cluster hs with
  | idle h => exact h.elim
  | @heartBeatArgs _ _ rd args' hrd hc ha =>
      have hidx := (List.getElem?_eq_some_iff.mp hrd).1
      have : args' = args := by
        simpa [Cluster.beatRequest?, List.getElem?_set_self hidx] using hargs
      subst this
      obtain ⟨hT, hl, -⟩ := Raft.heartBeatArgs_eq_some ha
      have hlead : (st.rafts rd.leader).state = .leader := by
        by_contra hne
        exact hnot (by simp [writeSlip, buildsStale, hrd, hne])
      obtain ⟨x, a, hx, hb, hTx, -⟩ := promoted_of_run h
        (hD.tail.mono fun x a h => by simp [writeSlip, h]) rd.leader hlead
      rw [hl, hT]
      exact ⟨x, a, hx, hb, hTx⟩

/-- The first heartbeat of a fresh leader. -/
theorem leader_of_sent_run : ∃ tr st, (cluster 2 ℕ).Run tr st ∧
    (∃ st' ∈ st.step (.heartBeatArgs 0 1), ∃ args ∈ st'.beatRequest? 0 1,
      args.leaderId = 0 ∧ args.term = 1) ∧
    ∃ x a, (x, a) ∈ tr ∧ becomesLeader x a 0 ∧ (x.rafts 0).currentTerm = 1 := by
  obtain ⟨tr, st, h, hD, hsent⟩ := (cluster 2 ℕ).exists_run_of_exec
    [.timer 0, .attemptEletion 0, .requestVote 0 1, .voteReply 0 1, .heartBeat 0]
    (fun tr st => Avoids (fun x a => writeSlip x a) ((st, .heartBeatArgs 0 1) :: tr) ∧
      ∃ st' ∈ st.step (.heartBeatArgs 0 1), ∃ args ∈ st'.beatRequest? 0 1,
        args.leaderId = 0 ∧ args.term = 1) (by decide)
  refine ⟨tr, st, h, hsent, ?_⟩
  obtain ⟨st', hs, args, hargs, hl, hT⟩ := hsent
  have := leader_of_sent h hD hs args hargs
  rwa [hl, hT] at this

/-- Two runs in which 0 writes for term 2 and never led it, each with only one of the two slips. In
the first, the `HeartBeat` of 0 finds it leader of term 1; before the goroutine for 2 gets the
lock, the answer of 1, which has stood for term 2 meanwhile, makes 0 a follower of term 2. In the
second, 0 takes over term 2 from the `RequestVote` of 1 and stays leader. -/
theorem leader_of_sent_fails :
    (∃ tr st, (cluster 3 ℕ).Run tr st ∧ Avoids (fun x a => raisesLeader x a) tr ∧
      (∃ args ∈ st.beatRequest? 0 2, args.leaderId = 0 ∧ args.term = 2) ∧
      ∀ q ∈ tr, ¬ (becomesLeader q.1 q.2 0 ∧ (q.1.rafts 0).currentTerm = 2)) ∧
    ∃ tr st, (cluster 3 ℕ).Run tr st ∧ Avoids (fun x a => buildsStale x a) tr ∧
      (∃ args ∈ st.beatRequest? 0 2, args.leaderId = 0 ∧ args.term = 2) ∧
      ∀ q ∈ tr, ¬ (becomesLeader q.1 q.2 0 ∧ (q.1.rafts 0).currentTerm = 2) := by
  constructor
  · exact (cluster 3 ℕ).exists_run_of_exec
      [.timer 0, .attemptEletion 0, .requestVote 0 1, .voteReply 0 1, .heartBeat 0,
        .timer 1, .attemptEletion 1, .heartBeatArgs 0 1, .appendEntries 0 1, .heartBeatReply 0 1,
        .heartBeatArgs 0 2]
      (fun tr st => Avoids (fun x a => raisesLeader x a) tr ∧
        (∃ args ∈ st.beatRequest? 0 2, args.leaderId = 0 ∧ args.term = 2) ∧
        ∀ q ∈ tr, ¬ (becomesLeader q.1 q.2 0 ∧ (q.1.rafts 0).currentTerm = 2)) (by decide)
  · exact (cluster 3 ℕ).exists_run_of_exec
      [.timer 0, .attemptEletion 0, .requestVote 0 1, .voteReply 0 1,
        .timer 1, .attemptEletion 1, .requestVote 1 0, .heartBeat 0, .heartBeatArgs 0 2]
      (fun tr st => Avoids (fun x a => buildsStale x a) tr ∧
        (∃ args ∈ st.beatRequest? 0 2, args.leaderId = 0 ∧ args.term = 2) ∧
        ∀ q ∈ tr, ¬ (becomesLeader q.1 q.2 0 ∧ (q.1.rafts 0).currentTerm = 2)) (by decide)

end Runs

end GoLabs.Consensus
