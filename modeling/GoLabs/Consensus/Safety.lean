import GoLabs.Consensus.Completeness
import GoLabs.Consensus.Indices

/-!
# Committed logs and state machine safety

A log is `Committed` when a leader has set `commitIndex` to the end of it. Of any two committed logs
one extends the other (`Committed.comparable`), the log of a later leader extends every committed
log (`Committed.isPrefix`), and what any peer has committed is a prefix of a committed log
(`CommitOk`). So all peers deliver the entries of one sequence.

Besides the steps of `holdSlip` and `uncovered` this leaves out one more, in which the code does
what the Raft paper warns of (its Figure 8): a leader commits a log whose last entry is not of its
own term, counting replicas only (`commitsOlder`). Any one of the six kinds of steps is enough to
make two peers deliver different commands at one index (`stateMachineSafety_fails`); without them
the sequences delivered extend one another (`stateMachineSafety`).

**Leader completeness** in the form "whoever becomes leader later has what was committed before"
fails by design: a candidate of an older term may collect its last vote long after a newer leader
has committed (`leaderCompleteness_fails`). It holds for the leaders of later terms
(`leaderCompleteness`).
-/

namespace GoLabs.Consensus

open GoLabs.Lib

variable {n : ℕ} {C : Type}

/-- The step that goes wrong: `commitIndex` moves up to an entry of an older term.
Source: `raft.go` `HeartBeat` -/
def commitsOlder (st : Cluster n C) (a : Action n C) : Bool :=
  (committer st a).any fun s =>
    (st.rafts s).commitIndex < (st.rafts s).lastLogIndex ∧
      (st.rafts s).lastLogTerm? ≠ some (st.rafts s).currentTerm

/-- The steps that let peers deliver different commands. -/
def safetySlip (st : Cluster n C) (a : Action n C) : Bool :=
  holdSlip st a || uncovered st a || commitsOlder st a

/-- The six kinds of steps of `safetySlip`. -/
inductive Slip
  | raisesLeader
  | acksUnstored
  | buildsStale
  | erases
  | uncovered
  | commitsOlder
  deriving DecidableEq

/-- The step is of the given kind. -/
def Slip.occurs : Slip → Cluster n C → Action n C → Bool
  | raisesLeader, st, a => Consensus.raisesLeader st a
  | acksUnstored, st, a => Consensus.acksUnstored st a
  | buildsStale, st, a => Consensus.buildsStale st a
  | erases, st, a => Consensus.erases st a
  | uncovered, st, a => Consensus.uncovered st a
  | commitsOlder, st, a => Consensus.commitsOlder st a

/-- The step is a slip of another kind than the given one. -/
def Slip.other (k : Slip) (st : Cluster n C) (a : Action n C) : Bool :=
  [raisesLeader, acksUnstored, buildsStale, erases, uncovered, commitsOlder].any fun k' =>
    k' ≠ k && k'.occurs st a

/-- The six kinds are all that `safetySlip` leaves out. -/
lemma safetySlip_iff {st : Cluster n C} {a : Action n C} :
    safetySlip st a ↔ ∃ k : Slip, k.occurs st a := by
  constructor
  · intro h
    simp only [safetySlip, holdSlip, ackSlip, Bool.or_eq_true] at h
    obtain ((((h | h) | h) | h) | h) | h := h
    · exact ⟨.raisesLeader, h⟩
    · exact ⟨.acksUnstored, h⟩
    · exact ⟨.buildsStale, h⟩
    · exact ⟨.erases, h⟩
    · exact ⟨.uncovered, h⟩
    · exact ⟨.commitsOlder, h⟩
  · rintro ⟨k, h⟩
    cases k <;> simp only [Slip.occurs] at h <;> simp [safetySlip, holdSlip, ackSlip, h]

/-- Without the slips of safety there are none that lose an entry which a majority held. -/
lemma avoids_holdSlip {tr : Trace n C} (hD : Avoids (fun x a => safetySlip x a) tr) :
    Avoids (fun x a => holdSlip x a) tr :=
  hD.mono fun x a h => by simp [safetySlip, h]

/-- The part of the log up to `commitIndex`. -/
def Raft.committedLog (rf : Raft n C) : List (LogEntry C) := rf.log.take (rf.commitIndex.toNat + 1)

/-- The committed log goes up to `commitIndex`. -/
lemma Raft.committedLog_length {rf : Raft n C} (h : IndicesOk rf) :
    rf.committedLog.length = rf.commitIndex.toNat + 1 := by
  have h0 := h.applied_nonneg
  have h1 := h.applied_le
  have h2 := h.commit_le
  rw [committedLog, List.length_take]
  omega

/-- A log that goes on behind what was committed has the same part up to `commitIndex`. -/
lemma Raft.committedLog_eq {rf rf' : Raft n C} (h : IndicesOk rf)
    (hpre : rf.committedLog <+: rf'.log) (hc : rf'.commitIndex = rf.commitIndex) :
    rf'.committedLog = rf.committedLog := by
  obtain ⟨M, hM⟩ := hpre
  have hlen := Raft.committedLog_length h
  rw [committedLog, hc, ← hM, List.take_append_of_le_length (by omega), List.take_of_length_le]
  omega

/-! ## What a step commits and delivers -/

/-- **What a step does to `commitIndex`**: nothing, the handler of an answer sets it to the end of
the log, or an accepted request moves it up. -/
lemma PeerStep.commit_cases {st : Cluster n C} {a : Action n C} {s : Fin n} {rf : Raft n C}
    (h : PeerStep st a s rf) :
    rf.commitIndex = (st.rafts s).commitIndex ∨
      (committer st a = some s ∧ rf.currentTerm = (st.rafts s).currentTerm ∧
        rf.log = (st.rafts s).log ∧ rf.commitIndex = (st.rafts s).lastLogIndex) ∨
      ∃ r rd args, a = .appendEntries r s ∧ st.rounds[r]? = some rd ∧
        rd.calls s = .requested args ∧ (st.rafts s).accepts args ∧
        rf = { st.rafts s with currentTerm := args.term }.accept args ∧
        rf.commitIndex = min args.leaderCommit rf.lastLogIndex := by
  cases h with
  | quiet _ _ _ _ commit => exact Or.inl commit
  | raise => exact Or.inl (by simp)
  | vote => exact Or.inl (by simp)
  | @accept r rd args prev ha hrd hc hs ht hi hp hpt =>
      have hacc := Raft.accepts_iff.mpr ⟨hs, ht, hi, prev, hp, hpt⟩
      by_cases hlt : (st.rafts s).commitIndex < args.leaderCommit
      · refine Or.inr (Or.inr ⟨r, rd, args, ha, hrd, hc, hacc, rfl, ?_⟩)
        simp only [Raft.accept, Raft.lastLogIndex, gt_iff_lt, hlt, if_true]
        split_ifs <;> omega
      · refine Or.inl ?_
        simp only [Raft.accept, gt_iff_lt, hlt, if_false]
  | @commit r p rd _ _ ha hrd hl hcm =>
      refine Or.inr (Or.inl ⟨?_, rfl, rfl, rfl⟩)
      simp [ha, committer, hrd, hcm, hl]
  | _ => exact Or.inl rfl

/-- `commitIndex` is not behind the last entry. -/
lemma IndicesOk.commit_le_lastLogIndex {rf : Raft n C} (h : IndicesOk rf) :
    rf.commitIndex ≤ rf.lastLogIndex := h.commit_le

/-- Only `apply` moves `lastApplied`. -/
lemma PeerStep.lastApplied_eq {st : Cluster n C} {a : Action n C} {s : Fin n} {rf : Raft n C}
    (h : PeerStep st a s rf) (ha : a ≠ .apply s) :
    rf.lastApplied = (st.rafts s).lastApplied := by
  cases h with
  | quiet _ _ _ _ _ applied => exact applied
  | raise => simp
  | vote => simp
  | apply ha' => exact absurd ha' ha
  | _ => rfl

/-- **What a step does to the channel**: nothing, or one entry behind `lastApplied` is delivered. -/
lemma Step.applyCh_cases {st st' : Cluster n C} {a : Action n C} (h : Step st a st') (s : Fin n) :
    (st'.applyCh s = st.applyCh s ∧ (st'.rafts s).lastApplied = (st.rafts s).lastApplied) ∨
      ∃ entry, (st.rafts s).lastApplied < (st.rafts s).commitIndex ∧
        Slice.get? (st.rafts s).log ((st.rafts s).lastApplied + 1) = some entry ∧
        (st'.rafts s).log = (st.rafts s).log ∧
        (st'.rafts s).lastApplied = (st.rafts s).lastApplied + 1 ∧
        st'.applyCh s = st.applyCh s ++
          [⟨true, entry.command, (st.rafts s).lastApplied + 1⟩] := by
  have hp := h.peer s
  cases h with
  | @apply p entry hlt he =>
      by_cases hsp : s = p
      · subst hsp
        exact Or.inr ⟨entry, hlt, he, by simp, by simp, by simp⟩
      · exact Or.inl ⟨by simp [hsp], by simp [hsp]⟩
  | idle => exact Or.inl ⟨rfl, rfl⟩
  | _ => exact Or.inl ⟨rfl, hp.lastApplied_eq (by simp)⟩

/-- What was sent on the channel stays there. -/
lemma Step.applyCh_isPrefix {st st' : Cluster n C} {a : Action n C} (h : Step st a st')
    (s : Fin n) : st.applyCh s <+: st'.applyCh s := by
  rcases h.applyCh_cases s with ⟨hch, -⟩ | ⟨entry, -, -, -, -, hch⟩
  · rw [hch]
  · rw [hch]
    exact List.prefix_append _ _

/-- The messages for the entries of a log, the placeholder left out. -/
def deliveries (L : List (LogEntry C)) : List (ApplyMsg C) :=
  L.tail.mapIdx fun i e => ⟨true, e.command, (i : ℤ) + 1⟩

/-- The messages for more entries are numbered on. -/
lemma deliveries_append {L : List (LogEntry C)} (hL : L ≠ []) (M : List (LogEntry C)) :
    deliveries (L ++ M) =
      deliveries L ++ M.mapIdx fun i e => ⟨true, e.command, ((i + L.length : ℕ) : ℤ)⟩ := by
  obtain ⟨e, L, rfl⟩ := List.exists_cons_of_ne_nil hL
  simp only [deliveries, List.cons_append, List.tail_cons, List.mapIdx_append, List.length_cons]
  congr 2

/-- The messages for a longer log extend those for a shorter one. -/
lemma deliveries_isPrefix {L M : List (LogEntry C)} (h : L <+: M) :
    deliveries L <+: deliveries M := by
  rcases eq_or_ne L [] with rfl | hL
  · simp [deliveries]
  · obtain ⟨N, rfl⟩ := h
    rw [deliveries_append hL]
    exact List.prefix_append _ _

/-- The messages number the entries from 1 on. -/
lemma commandIndex_deliveries (L : List (LogEntry C)) :
    (deliveries L).map ApplyMsg.commandIndex =
      (List.range (deliveries L).length).map fun i : ℕ => (i : ℤ) + 1 := by
  refine List.ext_getElem (by simp) fun i h₁ h₂ => ?_
  simp only [deliveries, List.getElem_map, List.getElem_mapIdx, List.getElem_range]

section Runs

variable [Inhabited C] {tr : Trace n C} {st : Cluster n C}

/-! ## Committed logs -/

/-- In term `T` a leader has set `commitIndex` to the end of its log `L`. The placeholder counts as
committed from the start. -/
inductive Committed (tr : Trace n C) : ℕ → List (LogEntry C) → Prop
  | init : Committed tr 0 [⟨0, default⟩]
  | commit {y : Cluster n C} {a : Action n C} {s : Fin n} (hy : (y, a) ∈ tr)
      (hc : committer y a = some s) (h0 : 0 ≤ (y.rafts s).commitIndex)
      (hlt : (y.rafts s).commitIndex < (y.rafts s).lastLogIndex) :
      Committed tr (y.rafts s).currentTerm (y.rafts s).log

/-- What was committed in a run was committed in a longer one. -/
lemma Committed.mono {tr' : Trace n C} {T : ℕ} {L : List (LogEntry C)} (h : Committed tr T L)
    (htr : tr ⊆ tr') : Committed tr' T L := by
  cases h with
  | init => exact .init
  | commit hy hc h0 hlt => exact .commit (htr hy) hc h0 hlt

/-- What a committing step of the run leaves behind: the peer led its term, and a majority held its
whole log. -/
lemma stored_of_mem (h : (cluster n C).Run tr st) (hD : Avoids (fun x a => safetySlip x a) tr)
    {y : Cluster n C} {a : Action n C} {s : Fin n} (hy : (y, a) ∈ tr)
    (hc : committer y a = some s) :
    (y.rafts s).state = .leader ∧ ∃ Q : Finset (Fin n), Majority Q ∧
      ∀ v ∈ Q, ∃ x, Visited tr st x ∧ (x.rafts v).currentTerm = (y.rafts s).currentTerm ∧
        (x.rafts v).log = (y.rafts s).log := by
  have hcov : ¬ uncovered y a := fun hu => hD _ hy (by simp [safetySlip, hu])
  obtain ⟨tr₁, tr₂, -, rfl, hrun, -⟩ := h.of_mem hy
  have hsub : tr₂ ⊆ tr₁ ++ (y, a) :: tr₂ := fun q hq =>
    List.mem_append_right _ (List.mem_cons_of_mem _ hq)
  have hD₂ : Avoids (fun x a => ackSlip x a) tr₂ := fun q hq =>
    avoids_ackSlip_of_holdSlip (avoids_holdSlip hD) q (hsub hq)
  obtain ⟨hl, Q, hQ, -, hv⟩ := stored_of_commit hrun hD₂ hcov hc
  refine ⟨hl, Q, hQ, fun v hvQ => ?_⟩
  obtain ⟨x, hx, hT, hlog⟩ := hv v hvQ
  exact ⟨x, hx.mono hsub (Or.inr ⟨a, hy⟩), hT, hlog⟩

/-- Every log starts with the placeholder. -/
lemma placeholder_isPrefix (h : (cluster n C).Run tr st) {w : Cluster n C} (hw : Visited tr st w)
    (s : Fin n) : [⟨0, default⟩] <+: (w.rafts s).log := by
  have hhead := (logShape_of_run h hw s).head
  rw [← List.head?_eq_getElem?] at hhead
  obtain ⟨M, hM⟩ := List.head?_eq_some_iff.mp hhead
  exact ⟨M, hM.symm⟩

/-- **The log of a later leader extends every committed log.** -/
theorem Committed.isPrefix (h : (cluster n C).Run tr st)
    (hD : Avoids (fun x a => safetySlip x a) tr) {T : ℕ} {L : List (LogEntry C)}
    (hL : Committed tr T L) {w : Cluster n C} (hw : Visited tr st w) {s : Fin n}
    (hs : (w.rafts s).state = .leader) (hT : T < (w.rafts s).currentTerm) :
    L <+: (w.rafts s).log := by
  have hhold := avoids_holdSlip hD
  have hu := oneAppender_of_run h (avoids_electionSlip_of_holdSlip hhold)
  cases hL with
  | init => exact placeholder_isPrefix h hw s
  | @commit y a c hy hc h0 hlt =>
      obtain ⟨-, Q, hQ, hstored⟩ := stored_of_mem h hD hy hc
      have hlast : (y.rafts c).lastLogTerm? = some (y.rafts c).currentTerm := by
        by_contra hne
        exact hD _ hy (by simp [safetySlip, commitsOlder, hc, hlt, hne])
      obtain ⟨e, he, heT⟩ := lastLogTerm?_eq_some hlast
      simp only [Raft.lastLogIndex] at hlt
      have hheld : ∀ v ∈ Q, Held tr st ((y.rafts c).log.length - 1) e v := by
        intro v hv
        obtain ⟨x, hx, hxT, hxlog⟩ := hstored v hv
        exact ⟨x, hx, by rw [hxT, heT], by rw [hxlog, he]⟩
      obtain ⟨x, b, hx, hb, hxT, hxlog⟩ :=
        promoted_of_visited h (avoids_raisesLeader_of_holdSlip hhold) hw hs
      have hin := getElem?_of_isPrefix hxlog
        (held_of_promotion h hhold (by omega) hQ hheld (by omega) hx hb hxT)
      have hmatch := Sourced.matching h hu (sourced_of_run h hu (Or.inr ⟨a, hy⟩) c)
        (sourced_of_run h hu hw s) he hin rfl
      rw [List.take_of_length_le (by omega)] at hmatch
      exact hmatch ▸ List.take_prefix _ _

/-- A committed log and the log of a leader of the same or a later term extend one another. -/
lemma Committed.comparable_leader (h : (cluster n C).Run tr st)
    (hD : Avoids (fun x a => safetySlip x a) tr) {T : ℕ} {L : List (LogEntry C)}
    (hL : Committed tr T L) {w : Cluster n C} (hw : Visited tr st w) {s : Fin n}
    (hs : (w.rafts s).state = .leader) (hT : T ≤ (w.rafts s).currentTerm) :
    L <+: (w.rafts s).log ∨ (w.rafts s).log <+: L := by
  rcases hT.lt_or_eq with hlt | heq
  · exact Or.inl (hL.isPrefix h hD hw hs hlt)
  · cases hL with
    | init => exact Or.inl (placeholder_isPrefix h hw s)
    | commit hy hc =>
        exact leaderLog_comparable h (avoids_electionSlip_of_holdSlip (avoids_holdSlip hD))
          (Or.inr ⟨_, hy⟩) hw (stored_of_mem h hD hy hc).1 hs heq

/-- **Of two committed logs one extends the other.** -/
theorem Committed.comparable (h : (cluster n C).Run tr st)
    (hD : Avoids (fun x a => safetySlip x a) tr) {T U : ℕ} {L M : List (LogEntry C)}
    (hL : Committed tr T L) (hM : Committed tr U M) : L <+: M ∨ M <+: L := by
  wlog hTU : T ≤ U generalizing T U L M
  · exact (this hM hL (by omega)).symm
  cases hM with
  | init =>
      cases hL with
      | init => exact Or.inl List.prefix_rfl
      | commit hy hc => exact Or.inr (placeholder_isPrefix h (Or.inr ⟨_, hy⟩) _)
  | commit hy hc =>
      exact hL.comparable_leader h hD (Or.inr ⟨_, hy⟩) (stored_of_mem h hD hy hc).1 hTU

/-! ## What a peer has committed -/

/-- The indices of a peer are in its log, and what it has committed is part of a log committed in
its term or before. -/
structure CommitOk (tr : Trace n C) (rf : Raft n C) : Prop where
  indices : IndicesOk rf
  committed : ∃ T L, Committed tr T L ∧ T ≤ rf.currentTerm ∧ rf.committedLog <+: L

/-- **An accepted request keeps what the follower has committed**: it is a prefix of the log the
sender had when it built the request. -/
lemma CommitOk.accepted (h : (cluster n C).Run tr st)
    (hD : Avoids (fun x a => safetySlip x a) tr) {r : ℕ} {p : Fin n}
    (hok : CommitOk tr (st.rafts p)) {rd : Round n C} {args : AppendEntriesArgs n C}
    (hrd : st.rounds[r]? = some rd) (hc : rd.calls p = .requested args)
    (hacc : (st.rafts p).accepts args) (her : ¬ erases st (.appendEntries r p)) {w : Cluster n C}
    (hb : BuiltIn tr r p rd.leader args w) :
    (st.rafts p).committedLog <+: (w.rafts rd.leader).log := by
  obtain ⟨T, L, hL, hT, hpre⟩ := hok.committed
  obtain ⟨hl, hTw⟩ := BuiltIn.leader (avoids_holdSlip hD) hb
  have hle := (Raft.accepts_iff.mp hacc).2.1
  rcases hL.comparable_leader h hD (hb.visited st) hl (by omega) with hLw | hwL
  · exact hpre.trans hLw
  · rcases List.prefix_or_prefix_of_prefix hpre hwL with hpw | hwp
    · exact hpw
    · -- the sender's log ends before what is committed, so accepting it would erase
      by_cases hlen : (w.rafts rd.leader).log.length < (st.rafts p).committedLog.length
      · refine absurd
          (erases_of_isPrefix hrd hc hacc hb.eq (hwp.trans (List.take_prefix _ _)) ?_) her
        exact hlen.trans_le (List.take_prefix _ _).length_le
      · exact (hwp.eq_of_length (le_antisymm hwp.length_le (not_lt.mp hlen))).symm ▸
          List.prefix_rfl

/-- Every step keeps what a peer has committed. -/
lemma PeerStep.committedLog_isPrefix (h : (cluster n C).Run tr st)
    (hD : Avoids (fun x a => safetySlip x a) tr) {a : Action n C} (hnot : ¬ safetySlip st a)
    {v : Fin n} {rf : Raft n C} (hp : PeerStep st a v rf) (hok : CommitOk tr (st.rafts v)) :
    (st.rafts v).committedLog <+: rf.log := by
  rcases hp.log_cases with hlog | ⟨c, -, -, -, hlog⟩ | ⟨r, rd, args, rfl, hrd, hc, hacc, hrf⟩
  · exact hlog ▸ List.take_prefix _ _
  · exact hlog ▸ (List.take_prefix _ _).trans (List.prefix_append _ _)
  · obtain ⟨w, hb⟩ := (built_of_run h r rd hrd).2 v args (by simp [hc])
    have her : ¬ erases st (.appendEntries r v) := fun her =>
      hnot (by simp [safetySlip, holdSlip, her])
    have hu := oneAppender_of_run h (avoids_electionSlip_of_holdSlip (avoids_holdSlip hD))
    rw [hrf, accept_log_eq_sender h hu hb hacc args.term]
    exact hok.accepted h hD hrd hc hacc her hb

/-- So no request cuts off what is committed. -/
lemma not_cutsCommitted (h : (cluster n C).Run tr st)
    (hD : Avoids (fun x a => safetySlip x a) tr) {a : Action n C} (hnot : ¬ safetySlip st a)
    (hok : ∀ v, CommitOk tr (st.rafts v)) : ¬ cutsCommitted st a := by
  intro hcut
  cases a with
  | appendEntries r p =>
      simp only [cutsCommitted, Option.any_eq_true, decide_eq_true_eq, Cluster.beatRequest?,
        Option.bind_eq_some_iff, Rpc.requested?_eq_some] at hcut
      obtain ⟨args, ⟨rd, hrd, hc⟩, hacc, hlt⟩ := hcut
      obtain ⟨hs, ht, hi, prev, hp, hpt⟩ := Raft.accepts_iff.mp hacc
      have hpre := PeerStep.committedLog_isPrefix h hD hnot
        (.accept rfl hrd hc hs ht hi hp hpt) (hok p)
      have hlen := accept_log_length { st.rafts p with currentTerm := args.term } hi hp
      have := hpre.length_le
      rw [Raft.committedLog_length (hok p).indices] at this
      omega
  | _ => cases hcut

/-- One step keeps the peers in order. -/
lemma CommitOk.step (h : (cluster n C).Run tr st) (hD : Avoids (fun x a => safetySlip x a) tr)
    {a : Action n C} {st' : Cluster n C} (hnot : ¬ safetySlip st a) (hs : Step st a st')
    (hok : ∀ x, Visited tr st x → ∀ v, CommitOk tr (x.rafts v)) (v : Fin n) :
    CommitOk ((st, a) :: tr) (st'.rafts v) := by
  have hv := hok st (Visited.now _ _) v
  have hp := hs.peer v
  have hcut := not_cutsCommitted h hD hnot (hok st (Visited.now _ _))
  have hpre := hp.committedLog_isPrefix h hD hnot hv
  have hsub : tr ⊆ (st, a) :: tr := List.subset_cons_self _ _
  refine ⟨(hp.indicesOk hcut hv.indices).1, ?_⟩
  -- as long as `commitIndex` stays, so does what is committed
  have hstay : (st'.rafts v).commitIndex = (st.rafts v).commitIndex →
      ∃ T L, Committed ((st, a) :: tr) T L ∧ T ≤ (st'.rafts v).currentTerm ∧
        (st'.rafts v).committedLog <+: L := by
    intro hci
    obtain ⟨T, L, hL, hT, hLpre⟩ := hv.committed
    refine ⟨T, L, hL.mono hsub, hT.trans hp.term_le, ?_⟩
    rwa [Raft.committedLog_eq hv.indices hpre hci]
  rcases hp.commit_cases with
    hci | ⟨hc, hT, hlog, hci⟩ | ⟨r, rd, args, rfl, hrd, hc, hacc, hrf, hci⟩
  · exact hstay hci
  · by_cases hlt : (st.rafts v).commitIndex < (st.rafts v).lastLogIndex
    · have h0 := hv.indices.applied_nonneg.trans hv.indices.applied_le
      refine ⟨_, _, .commit List.mem_cons_self hc h0 hlt, hT.ge, ?_⟩
      exact hlog ▸ List.take_prefix _ _
    · exact hstay (hci.trans (le_antisymm (not_lt.mp hlt) hv.indices.commit_le_lastLogIndex))
  · -- the follower takes over what the sender had committed when it built the request
    obtain ⟨w, hb⟩ := (built_of_run h r rd hrd).2 v args (by simp [hc])
    have hu := oneAppender_of_run h (avoids_electionSlip_of_holdSlip (avoids_holdSlip hD))
    have hlogw : (st'.rafts v).log = (w.rafts rd.leader).log := by
      rw [hrf, accept_log_eq_sender h hu hb hacc args.term]
    have hw := hok w (hb.visited st) rd.leader
    obtain ⟨hTw, -, -, -, -, hlc⟩ := Raft.heartBeatArgs_eq_some hb.eq
    have hci' : (st'.rafts v).commitIndex = (w.rafts rd.leader).commitIndex := by
      rw [hci, hlc, Raft.lastLogIndex, hlogw]
      exact min_eq_left hw.indices.commit_le
    obtain ⟨T, L, hL, hT, hLpre⟩ := hw.committed
    refine ⟨T, L, hL.mono hsub, ?_, ?_⟩
    · rw [hrf]
      exact hT.trans hTw.ge
    · rwa [Raft.committedLog, hlogw, hci']

/-- **What any peer has committed is part of a committed log**, in every state of the run. -/
theorem commitOk_of_run (h : (cluster n C).Run tr st)
    (hD : Avoids (fun x a => safetySlip x a) tr) {x : Cluster n C} (hx : Visited tr st x)
    (v : Fin n) : CommitOk tr (x.rafts v) := by
  refine System.Run.induction_avoiding
    (P := fun tr st => ∀ x, Visited tr st x → ∀ v, CommitOk tr (x.rafts v)) ?_ ?_ h hD x hx v
  · rintro x (rfl | ⟨a, ha⟩) v
    · refine ⟨⟨le_refl _, le_refl _, by simp [cluster, Cluster.make, make]⟩, 0, _, .init, ?_⟩
      simp [cluster, Cluster.make, make, Raft.committedLog]
    · exact absurd ha List.not_mem_nil
  · rintro tr x a y hrun hav ih hnot hs z (rfl | ⟨b, hb⟩) v
    · exact CommitOk.step hrun hav hnot (Step.of_cluster hs) ih v
    · obtain ⟨hind, T, L, hL, hT, hpre⟩ := ih z (Visited.of_cons hb) v
      exact ⟨hind, T, L, hL.mono (List.subset_cons_self _ _), hT, hpre⟩

/-! ## What is delivered -/

/-- Each peer has delivered the entries up to `lastApplied`, one by one. -/
def Delivered (st : Cluster n C) : Prop :=
  ∀ s, st.applyCh s = deliveries ((st.rafts s).log.take ((st.rafts s).lastApplied.toNat + 1))

/-- One step keeps what was delivered equal to the log up to `lastApplied`. -/
lemma Delivered.step (h : (cluster n C).Run tr st) (hD : Avoids (fun x a => safetySlip x a) tr)
    {a : Action n C} {st' : Cluster n C} (hnot : ¬ safetySlip st a) (hs : Step st a st')
    (hd : Delivered st) : Delivered st' := by
  intro s
  have hok := commitOk_of_run h hD (Visited.now _ _) s
  have h0 := hok.indices.applied_nonneg
  have h1 := hok.indices.applied_le
  have h2 := hok.indices.commit_le
  rcases hs.applyCh_cases s with ⟨hch, hla⟩ | ⟨entry, hlt, he, hlog, hla, hch⟩
  · -- the entries delivered are among those committed, which stay
    have hpre := (hs.peer s).committedLog_isPrefix h hD hnot hok
    have htake : (st.rafts s).log.take ((st.rafts s).lastApplied.toNat + 1) =
        (st.rafts s).committedLog.take ((st.rafts s).lastApplied.toNat + 1) := by
      rw [Raft.committedLog, List.take_take, min_eq_left (by omega)]
    obtain ⟨M, hM⟩ := hpre
    have hlen := Raft.committedLog_length hok.indices
    rw [hch, hd s, hla, htake, ← hM, List.take_append_of_le_length (by omega)]
  · obtain ⟨-, he⟩ := Slice.get?_eq_some_iff.mp he
    have hnat : ((st.rafts s).lastApplied + 1).toNat = (st.rafts s).lastApplied.toNat + 1 := by
      omega
    rw [hnat] at he
    have htake : (st.rafts s).log.take ((st.rafts s).lastApplied.toNat + 1 + 1) =
        (st.rafts s).log.take ((st.rafts s).lastApplied.toNat + 1) ++ [entry] := by
      rw [List.take_add_one, he, Option.toList_some]
    have hlen : ((st.rafts s).log.take ((st.rafts s).lastApplied.toNat + 1)).length =
        (st.rafts s).lastApplied.toNat + 1 := by
      rw [List.length_take]
      omega
    rw [hch, hd s, hlog, hla, hnat, htake,
      deliveries_append (List.ne_nil_of_length_pos (by omega)), hlen]
    simp [h0]

/-- **In every run without slips the peers have delivered their logs up to `lastApplied`.** -/
theorem delivered_of_run (h : (cluster n C).Run tr st)
    (hD : Avoids (fun x a => safetySlip x a) tr) : Delivered st := by
  refine System.Run.induction_avoiding (P := fun _ st => Delivered st) ?_ ?_ h hD
  · intro s
    simp [cluster, Cluster.make, make, deliveries]
  · intro tr x a y hrun hav ih hnot hs
    exact Delivered.step hrun hav hnot (Step.of_cluster hs) ih

/-- What a peer has delivered are the messages for a part of a committed log. -/
lemma delivered_isPrefix (h : (cluster n C).Run tr st)
    (hD : Avoids (fun x a => safetySlip x a) tr) (s : Fin n) :
    ∃ T L, Committed tr T L ∧ st.applyCh s <+: deliveries L := by
  have hok := commitOk_of_run h hD (Visited.now _ _) s
  obtain ⟨T, L, hL, -, hpre⟩ := hok.committed
  have h0 := hok.indices.applied_nonneg
  have h1 := hok.indices.applied_le
  refine ⟨T, L, hL, ?_⟩
  rw [delivered_of_run h hD s]
  refine deliveries_isPrefix (List.IsPrefix.trans ?_ hpre)
  exact List.take_prefix_take_left (by omega)

/-! ## State machine safety -/

/-- **State machine safety**: of what two peers have delivered one is a prefix of the other, and
each delivers the indices 1, 2, 3, … This holds in every run in which

* no `RequestVote` of a higher term reaches a leader;
* no `AppendEntries` that is not older than its own term reaches a candidate or leader;
* every request is built by a peer that is still leader;
* no follower accepts a request that ends before its log and conflicts with nothing in it;
* a peer that sets `commitIndex` still leads, has counted only answers to requests of its term that
  went up to the end of its log, and does not move it up to an entry of an older term. -/
theorem stateMachineSafety (h : (cluster n C).Run tr st)
    (hD : Avoids (fun x a => safetySlip x a) tr) (s s' : Fin n) :
    (st.applyCh s <+: st.applyCh s' ∨ st.applyCh s' <+: st.applyCh s) ∧
      (st.applyCh s).map ApplyMsg.commandIndex =
        (List.range (st.applyCh s).length).map fun i : ℕ => (i : ℤ) + 1 := by
  constructor
  · obtain ⟨T, L, hL, hpre⟩ := delivered_isPrefix h hD s
    obtain ⟨T', L', hL', hpre'⟩ := delivered_isPrefix h hD s'
    rcases hL.comparable h hD hL' with hLL | hLL
    · exact List.prefix_or_prefix_of_prefix (hpre.trans (deliveries_isPrefix hLL)) hpre'
    · exact List.prefix_or_prefix_of_prefix hpre (hpre'.trans (deliveries_isPrefix hLL))
  · rw [delivered_of_run h hD s]
    exact commandIndex_deliveries _

/-- Two peers have delivered the first entry, one of them the second: the shorter sequence is a
prefix of the longer one. -/
theorem stateMachineSafety_run : ∃ tr st, (cluster 3 ℕ).Run tr st ∧
    Avoids (fun x a => safetySlip x a) tr ∧ (st.applyCh 0).map ApplyMsg.command = [10, 20] ∧
    (st.applyCh 1).map ApplyMsg.command = [10] ∧ st.applyCh 1 <+: st.applyCh 0 := by
  obtain ⟨tr, st, h, hD, h0, h1⟩ := (cluster 3 ℕ).exists_run_of_exec
    [.timer 0, .attemptEletion 0, .requestVote 0 1, .voteReply 0 1, .start 0 10, .start 0 20,
      .heartBeat 0, .heartBeatArgs 0 1, .appendEntries 0 1, .heartBeatReply 0 1, .apply 0, .apply 0,
      .heartBeat 0, .heartBeatArgs 1 1, .appendEntries 1 1, .apply 1]
    (fun tr st => Avoids (fun x a => safetySlip x a) tr ∧
      (st.applyCh 0).map ApplyMsg.command = [10, 20] ∧
      (st.applyCh 1).map ApplyMsg.command = [10]) (by decide)
  refine ⟨tr, st, h, hD, h0, h1, ?_⟩
  rcases (stateMachineSafety h hD 1 0).1 with hpre | hpre
  · exact hpre
  · have hlen := hpre.length_le
    rw [← List.length_map (f := ApplyMsg.command), h0,
      ← List.length_map (f := ApplyMsg.command), h1] at hlen
    simp at hlen

/-- A run in which slips of one kind only let two peers deliver sequences that do not extend one
another. -/
def DeliversApart (n : ℕ) (k : Slip) : Prop :=
  ∃ tr st, (cluster n ℕ).Run tr st ∧ Avoids (fun x a => k.other x a) tr ∧
    ∃ s s', ¬ st.applyCh s <+: st.applyCh s' ∧ ¬ st.applyCh s' <+: st.applyCh s

/-- Such a run, from a list of actions that can be executed. -/
lemma DeliversApart.of_exec {n : ℕ} {k : Slip} (as : List (Action n ℕ)) (s s' : Fin n)
    (h : ((cluster n ℕ).exec as).any (fun q => decide (Avoids (fun x a => k.other x a) q.1 ∧
      ¬ q.2.applyCh s <+: q.2.applyCh s' ∧ ¬ q.2.applyCh s' <+: q.2.applyCh s)) = true) :
    DeliversApart n k := by
  obtain ⟨tr, st, hrun, hD, hs⟩ := (cluster n ℕ).exists_run_of_exec as
    (fun tr st => Avoids (fun x a => k.other x a) tr ∧
      ¬ st.applyCh s <+: st.applyCh s' ∧ ¬ st.applyCh s' <+: st.applyCh s) h
  exact ⟨tr, st, hrun, hD, s, s', hs⟩

/-- **State machine safety fails**, for each kind of slip alone. In each run one peer delivers
another first command than another one.

* `raisesLeader` — 0 takes over term 2 from the `RequestVote` of 1 and both lead it; 2 takes an
  entry of each, and each commits its own.
* `acksUnstored` — 1 is a candidate, answers the entry of 0 with success and does not store it; 0
  commits it. 1 is elected next, without the entry.
* `buildsStale` — 0 loses term 2 to 1, and builds a request of term 2 with its old log; 2 takes it
  in place of the entry 1 has committed, and then elects 0.
* `erases` — an empty heartbeat of 0 arrives late at 1 and cuts off the entry 0 has committed; 1 is
  elected next.
* `uncovered` — 0 appends an entry while its heartbeat is under way, and commits it with the answer;
  1 is elected next.
* `commitsOlder` — 0 has an entry of term 1 and 2 one of term 2. Elected again in term 3, 0
  replicates its entry to 1 and commits it; 2 is elected in term 4, because the entry of term 2 is
  newer, and overwrites it. -/
theorem stateMachineSafety_fails :
    DeliversApart 3 .raisesLeader ∧ DeliversApart 3 .acksUnstored ∧
      DeliversApart 3 .buildsStale ∧ DeliversApart 3 .erases ∧ DeliversApart 3 .uncovered ∧
      DeliversApart 3 .commitsOlder := by
  refine ⟨?_, ?_, ?_, ?_, ?_, ?_⟩
  · exact .of_exec
      [.timer 0, .attemptEletion 0, .requestVote 0 1, .voteReply 0 1,
        .timer 1, .attemptEletion 1, .requestVote 1 0, .requestVote 1 2, .voteReply 1 2,
        .start 0 10, .start 1 20,
        .heartBeat 0, .heartBeatArgs 0 2, .appendEntries 0 2, .heartBeatReply 0 2, .apply 0,
        .heartBeat 1, .heartBeatArgs 1 2, .appendEntries 1 2, .heartBeatReply 1 2, .apply 1]
      0 1 (by decide)
  · exact .of_exec
      [.timer 0, .attemptEletion 0, .timer 1, .attemptEletion 1, .requestVote 0 2, .voteReply 0 2,
        .start 0 10,
        .heartBeat 0, .heartBeatArgs 0 1, .appendEntries 0 1, .heartBeatReply 0 1, .apply 0,
        .timer 1, .attemptEletion 1, .requestVote 2 2, .voteReply 2 2, .start 1 20,
        .heartBeat 1, .heartBeatArgs 1 2, .appendEntries 1 2, .heartBeatReply 1 2, .apply 1]
      0 1 (by decide)
  · exact .of_exec
      [.timer 0, .attemptEletion 0, .requestVote 0 1, .voteReply 0 1, .start 0 10, .heartBeat 0,
        .timer 1, .attemptEletion 1, .requestVote 1 2, .voteReply 1 2, .start 1 20,
        .heartBeat 1, .heartBeatArgs 1 2, .appendEntries 1 2, .heartBeatReply 1 2, .apply 1,
        .heartBeatArgs 0 1, .appendEntries 0 1, .heartBeatReply 0 1,
        .heartBeatArgs 0 2, .appendEntries 0 2,
        .timer 0, .attemptEletion 0, .requestVote 2 2, .voteReply 2 2, .start 0 30,
        .heartBeat 0, .heartBeatArgs 2 2, .appendEntries 2 2, .heartBeatReply 2 2, .apply 0]
      0 1 (by decide)
  · exact .of_exec
      [.timer 0, .attemptEletion 0, .requestVote 0 1, .voteReply 0 1,
        .heartBeat 0, .heartBeatArgs 0 1, .start 0 10,
        .heartBeat 0, .heartBeatArgs 1 1, .appendEntries 1 1, .heartBeatReply 1 1, .apply 0,
        .appendEntries 0 1,
        .timer 1, .attemptEletion 1, .requestVote 1 2, .voteReply 1 2, .start 1 20,
        .heartBeat 1, .heartBeatArgs 2 2, .appendEntries 2 2, .heartBeatReply 2 2, .apply 1]
      0 1 (by decide)
  · exact .of_exec
      [.timer 0, .attemptEletion 0, .requestVote 0 1, .voteReply 0 1,
        .heartBeat 0, .heartBeatArgs 0 1, .appendEntries 0 1, .start 0 10, .heartBeatReply 0 1,
        .apply 0,
        .timer 1, .attemptEletion 1, .requestVote 1 2, .voteReply 1 2, .start 1 20,
        .heartBeat 1, .heartBeatArgs 1 2, .appendEntries 1 2, .heartBeatReply 1 2, .apply 1]
      0 1 (by decide)
  · exact .of_exec
      [.timer 0, .attemptEletion 0, .requestVote 0 1, .voteReply 0 1, .start 0 10,
        .timer 2, .attemptEletion 2, .timer 2, .attemptEletion 2, .requestVote 2 1,
        .voteReply 2 1, .start 2 20,
        .heartBeat 0, .heartBeatArgs 0 1, .appendEntries 0 1, .heartBeatReply 0 1,
        .timer 0, .attemptEletion 0, .requestVote 3 1, .voteReply 3 1,
        .heartBeat 0, .heartBeatArgs 1 1, .appendEntries 1 1, .heartBeatReply 1 1,
        .heartBeat 0, .heartBeatArgs 2 1, .appendEntries 2 1, .heartBeatReply 2 1, .apply 0,
        .heartBeat 2, .heartBeatArgs 3 1, .appendEntries 3 1, .heartBeatReply 3 1,
        .timer 2, .attemptEletion 2, .requestVote 4 1, .voteReply 4 1,
        .heartBeat 2, .heartBeatArgs 4 1, .appendEntries 4 1, .heartBeatReply 4 1,
        .heartBeat 2, .heartBeatArgs 5 1, .appendEntries 5 1, .heartBeatReply 5 1, .apply 2]
      0 2 (by decide)

/-! ## Leader completeness -/

/-- **Leader completeness**: when a peer sets `commitIndex` to `k` or more as the handler of an
answer, every peer that becomes leader of a later term has its entry at `k`. -/
theorem leaderCompleteness (h : (cluster n C).Run tr st)
    (hD : Avoids (fun x a => safetySlip x a) tr) {y y' : Cluster n C} {a : Action n C} {s : Fin n}
    (hy : (y, a) ∈ tr) (hc : committer y a = some s) (hs : (cluster n C).step y a = some y') (k : ℕ)
    (hk : (k : ℤ) ≤ (y'.rafts s).commitIndex) {x : Cluster n C} {b : Action n C} {c : Fin n}
    (hx : (x, b) ∈ tr) (hb : becomesLeader x b c)
    (hT : (y.rafts s).currentTerm < (x.rafts c).currentTerm) :
    ∃ e, (y.rafts s).log[k]? = some e ∧ (x.rafts c).log[k]? = some e := by
  have hok := commitOk_of_run h hD (h.visited_next hy hs) s
  obtain ⟨T, L, hL, hTle, hpre⟩ := hok.committed
  obtain ⟨-, hlog, hterm⟩ := commitIndex_of_committer hs hc
  -- the new leader, right after its promotion
  obtain ⟨x', hx', hnl, hl⟩ := becomesLeader_iff.mp hb
  obtain hl' | ⟨-, hrf, -⟩ := ((Step.of_step hx').peer c).leader_cases hl
  · exact absurd hl' hnl
  have hLx : L <+: (x'.rafts c).log := hL.isPrefix h hD (h.visited_next hx hx') hl (by
    rw [hrf, Raft.conevrtToLeader_currentTerm]
    omega)
  rw [hrf, Raft.conevrtToLeader_log] at hLx
  have hklt : k < (y'.rafts s).committedLog.length := by
    rw [Raft.committedLog_length hok.indices]
    omega
  have he := List.getElem?_eq_getElem hklt
  refine ⟨_, ?_, getElem?_of_isPrefix (hpre.trans hLx) he⟩
  rw [← hlog]
  exact getElem?_of_isPrefix (List.take_prefix _ _) he

/-- Peer 0 commits an entry together with peer 1, which is then elected in term 2 and has it. -/
theorem leaderCompleteness_run : ∃ tr st, (cluster 3 ℕ).Run tr st ∧
    Avoids (fun x a => safetySlip x a) tr ∧
    ∃ x b, (x, b) ∈ tr ∧ becomesLeader x b 1 ∧ (x.rafts 1).currentTerm = 2 ∧
      ∃ e, (x.rafts 1).log[1]? = some e := by
  obtain ⟨tr, st, h, hD, ⟨⟨y, a⟩, hy, hc, ⟨y', hs, hk⟩, hT⟩, ⟨x, b⟩, hx, hb, hT'⟩ :=
    (cluster 3 ℕ).exists_run_of_exec
      [.timer 0, .attemptEletion 0, .requestVote 0 1, .voteReply 0 1, .start 0 10, .heartBeat 0,
        .heartBeatArgs 0 1, .appendEntries 0 1, .heartBeatReply 0 1,
        .timer 1, .attemptEletion 1, .requestVote 1 2, .voteReply 1 2]
      (fun tr st => Avoids (fun x a => safetySlip x a) tr ∧
        (∃ q ∈ tr, committer q.1 q.2 = some 0 ∧
          (∃ y' ∈ q.1.step q.2, (1 : ℕ) ≤ (y'.rafts 0).commitIndex) ∧
          (q.1.rafts 0).currentTerm = 1) ∧
        ∃ q ∈ tr, becomesLeader q.1 q.2 1 ∧ (q.1.rafts 1).currentTerm = 2) (by decide)
  dsimp only at hT hT'
  obtain ⟨e, -, he⟩ := leaderCompleteness h hD hy hc hs 1 hk hx hb (by omega)
  exact ⟨tr, st, h, hD, x, b, hx, hb, hT', e, he⟩

/-- The peers that have the entry of `s` at index `k`. -/
def holders (st : Cluster n ℕ) (s : Fin n) (k : ℕ) : Finset (Fin n) :=
  Finset.univ.filter fun v => (st.rafts v).log[k]? = (st.rafts s).log[k]?

/-- A run that takes none of the steps `D`, in which a leader commits an entry that a majority holds
and a peer that becomes leader afterwards does not have it; the terms of the two leaders are related
by `R`. -/
def LosesCommitted (n : ℕ) (D : Cluster n ℕ → Action n ℕ → Bool) (R : ℕ → ℕ → Bool) : Prop :=
  ∃ tr st b c, (cluster n ℕ).Run tr st ∧ Avoids (fun x a => D x a) ((st, b) :: tr) ∧
    becomesLeader st b c ∧ ∃ q ∈ tr, ∃ s ∈ committer q.1 q.2,
      (q.1.rafts s).state = .leader ∧ R (q.1.rafts s).currentTerm (st.rafts c).currentTerm ∧
      ∃ k < (q.1.rafts s).log.length, Majority (holders q.1 s k) ∧
        (st.rafts c).log[k]? ≠ (q.1.rafts s).log[k]?

/-- Such a run, from a list of actions that can be executed. -/
lemma LosesCommitted.of_exec {n : ℕ} {D : Cluster n ℕ → Action n ℕ → Bool} {R : ℕ → ℕ → Bool}
    (as : List (Action n ℕ)) (b : Action n ℕ) (c : Fin n)
    (h : ((cluster n ℕ).exec as).any (fun r => decide (
      Avoids (fun x a => D x a) ((r.2, b) :: r.1) ∧ becomesLeader r.2 b c ∧
        ∃ q ∈ r.1, ∃ s ∈ committer q.1 q.2, (q.1.rafts s).state = .leader ∧
          R (q.1.rafts s).currentTerm (r.2.rafts c).currentTerm ∧
          ∃ k < (q.1.rafts s).log.length,
            Fintype.card (Fin n) < 2 * (holders q.1 s k).card ∧
            (r.2.rafts c).log[k]? ≠ (q.1.rafts s).log[k]?)) = true) :
    LosesCommitted n D R := by
  obtain ⟨tr, st, hrun, hD, hb, hq⟩ := (cluster n ℕ).exists_run_of_exec as
    (fun tr st => Avoids (fun x a => D x a) ((st, b) :: tr) ∧ becomesLeader st b c ∧
      ∃ q ∈ tr, ∃ s ∈ committer q.1 q.2, (q.1.rafts s).state = .leader ∧
        R (q.1.rafts s).currentTerm (st.rafts c).currentTerm ∧
        ∃ k < (q.1.rafts s).log.length,
          Fintype.card (Fin n) < 2 * (holders q.1 s k).card ∧
          (st.rafts c).log[k]? ≠ (q.1.rafts s).log[k]?) h
  exact ⟨tr, st, b, c, hrun, hD, hb, hq⟩

/-- **A leader elected later may lack what was committed**, with no slip at all: 0 has the votes it
needs for term 1 but learns of them only after 2 has become leader of term 2 and committed an entry.
And every kind of slip alone lets even a leader of a later term lack it.

* `raisesLeader`, `acksUnstored` — 0 and 1 lead term 2; 0 commits an entry with 2, 1 overwrites it
  on 2, and 2 is elected in term 3.
* `buildsStale` — 1 commits an entry of term 2 with 2, which 0 overwrites on 2 with a request of
  term 2; then 2 elects 0 in term 3.
* `erases` — a late heartbeat cuts off the committed entry on 1, and 1 is elected in term 2.
* `uncovered` — 0 has the entry of term 1 and has given it to 1; 4 collects votes for term 2 and 1
  is elected in term 3 and gives the entry to 2. Now 0 commits it with the answers to older
  heartbeats, and then 4 becomes leader of term 2.
* `commitsOlder` — 0 commits in term 3 an entry of term 1 together with 1; 2, with an entry of term
  2, is elected by 1 in term 4. -/
theorem leaderCompleteness_fails :
    LosesCommitted 3 safetySlip (fun _ _ => true) ∧
      ∀ k : Slip, ∃ n, LosesCommitted n k.other (fun T U => T < U) := by
  constructor
  · exact .of_exec
      [.timer 0, .attemptEletion 0, .requestVote 0 1,
        .timer 2, .attemptEletion 2, .timer 2, .attemptEletion 2, .requestVote 2 1,
        .voteReply 2 1, .start 2 20,
        .heartBeat 2, .heartBeatArgs 0 1, .appendEntries 0 1, .heartBeatReply 0 1]
      (.voteReply 0 1) 0 (by decide)
  · intro k
    cases k with
    | raisesLeader =>
        exact ⟨3, .of_exec
          [.timer 0, .attemptEletion 0, .requestVote 0 1, .voteReply 0 1,
            .timer 1, .attemptEletion 1, .requestVote 1 0, .requestVote 1 2, .voteReply 1 2,
            .start 0 10, .start 1 20,
            .heartBeat 0, .heartBeatArgs 0 2, .appendEntries 0 2, .heartBeatReply 0 2,
            .heartBeat 1, .heartBeatArgs 1 2, .appendEntries 1 2,
            .timer 2, .attemptEletion 2, .requestVote 2 1]
          (.voteReply 2 1) 2 (by decide)⟩
    | acksUnstored =>
        exact ⟨3, .of_exec
          [.timer 2, .attemptEletion 2, .timer 0, .attemptEletion 0, .timer 0, .attemptEletion 0,
            .timer 1, .attemptEletion 1, .timer 1, .attemptEletion 1, .requestVote 2 2,
            .voteReply 2 2, .heartBeat 0, .heartBeatArgs 0 2, .appendEntries 0 2,
            .requestVote 4 2, .voteReply 4 2, .start 0 10, .start 1 20,
            .heartBeat 0, .heartBeatArgs 1 2, .appendEntries 1 2, .heartBeatReply 1 2,
            .heartBeat 1, .heartBeatArgs 2 2, .appendEntries 2 2,
            .timer 2, .attemptEletion 2,
            .heartBeat 1, .heartBeatArgs 3 2, .appendEntries 3 2, .heartBeatReply 3 2,
            .requestVote 5 1]
          (.voteReply 5 1) 2 (by decide)⟩
    | buildsStale =>
        exact ⟨3, .of_exec
          [.timer 0, .attemptEletion 0, .requestVote 0 1, .voteReply 0 1, .start 0 10,
            .heartBeat 0, .timer 1, .attemptEletion 1, .requestVote 1 2, .voteReply 1 2,
            .start 1 20,
            .heartBeat 1, .heartBeatArgs 1 2, .appendEntries 1 2, .heartBeatReply 1 2,
            .heartBeatArgs 0 1, .appendEntries 0 1, .heartBeatReply 0 1,
            .heartBeatArgs 0 2, .appendEntries 0 2,
            .timer 0, .attemptEletion 0, .requestVote 2 2]
          (.voteReply 2 2) 0 (by decide)⟩
    | erases =>
        exact ⟨3, .of_exec
          [.timer 0, .attemptEletion 0, .requestVote 0 1, .voteReply 0 1,
            .heartBeat 0, .heartBeatArgs 0 1, .start 0 10,
            .heartBeat 0, .heartBeatArgs 1 1, .appendEntries 1 1, .heartBeatReply 1 1,
            .appendEntries 0 1, .timer 1, .attemptEletion 1, .requestVote 1 2]
          (.voteReply 1 2) 1 (by decide)⟩
    | uncovered =>
        exact ⟨5, .of_exec
          [.timer 0, .attemptEletion 0, .requestVote 0 1, .requestVote 0 2, .voteReply 0 1,
            .voteReply 0 2,
            .heartBeat 0, .heartBeatArgs 0 2, .appendEntries 0 2, .heartBeatArgs 0 3,
            .appendEntries 0 3, .start 0 10,
            .heartBeat 0, .heartBeatArgs 1 1, .appendEntries 1 1,
            .timer 4, .attemptEletion 4, .timer 4, .attemptEletion 4, .requestVote 2 2,
            .requestVote 2 3,
            .timer 1, .attemptEletion 1, .timer 1, .attemptEletion 1, .requestVote 4 2,
            .requestVote 4 3, .voteReply 4 2, .voteReply 4 3,
            .heartBeat 1, .heartBeatArgs 2 2, .appendEntries 2 2, .heartBeatReply 2 2,
            .heartBeat 1, .heartBeatArgs 3 2, .appendEntries 3 2,
            .heartBeatReply 0 2, .heartBeatReply 0 3, .voteReply 2 2]
          (.voteReply 2 3) 4 (by decide)⟩
    | commitsOlder =>
        exact ⟨3, .of_exec
          [.timer 0, .attemptEletion 0, .requestVote 0 1, .voteReply 0 1, .start 0 10,
            .timer 2, .attemptEletion 2, .timer 2, .attemptEletion 2, .requestVote 2 1,
            .voteReply 2 1, .start 2 20,
            .heartBeat 0, .heartBeatArgs 0 1, .appendEntries 0 1, .heartBeatReply 0 1,
            .timer 0, .attemptEletion 0, .requestVote 3 1, .voteReply 3 1,
            .heartBeat 0, .heartBeatArgs 1 1, .appendEntries 1 1, .heartBeatReply 1 1,
            .heartBeat 0, .heartBeatArgs 2 1, .appendEntries 2 1, .heartBeatReply 2 1,
            .heartBeat 2, .heartBeatArgs 3 1, .appendEntries 3 1, .heartBeatReply 3 1,
            .timer 2, .attemptEletion 2, .requestVote 4 1]
          (.voteReply 4 1) 2 (by decide)⟩

end Runs

end GoLabs.Consensus
