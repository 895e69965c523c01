import GoLabs.Consensus.Logs

/-!
# What a leader keeps about the others

`nextIndex` and `matchIndex` say what a leader believes about the other logs, and `termToIndex` is
the table it backs `nextIndex` up with. They are written in few places, listed by `BookStep`, but
not only while the peer leads: an answer that comes late writes into the tables of a peer that has
stepped down, or that leads again with another log.

* `termToIndex` is copied from the request of another leader together with the entries behind the
  previous one. The sender's table points into the sender's log, and the follower's new log is
  exactly as long as that log was, so **every table points into the log of its own peer**
  (`termToIndex_of_run`), in every run and in every role.
* So `backUp` stays between 1 and the end of the log, and **the books of a leader are in range**
  (`booksOk_of_run`): they are set up at the promotion, the log of a leader only grows, and every
  answer, of this reign or an earlier one, is booked against the log as it is now.
* `reign_log`: during a reign the log is extended by the successful calls of `Start` and by nothing
  else, and these return consecutive indices.
-/

namespace GoLabs.Consensus

open GoLabs.Lib

variable {n : ℕ} {C : Type}

/-! ## How the books change -/

/-- An answer that a goroutine of `HeartBeat` has in hand.
Source: `raft.go` `HeartBeat` -/
structure Answer (n : ℕ) (C : Type) where
  round : Round n C
  peer : Fin n
  args : AppendEntriesArgs n C
  reply : AppendEntriesReply

/-- The answer that is handled in this step. -/
def answer? (st : Cluster n C) : Action n C → Option (Answer n C)
  | .heartBeatReply r p => st.rounds[r]?.bind fun rd =>
      match rd.calls p with
      | .replied args reply => some ⟨rd, p, args, reply⟩
      | _ => none
  | _ => none

/-- What is in hand is what the round has for the peer. -/
lemma answer?_eq_some_iff {st : Cluster n C} {a : Action n C} {an : Answer n C} :
    answer? st a = some an ↔ ∃ r, a = .heartBeatReply r an.peer ∧
      st.rounds[r]? = some an.round ∧ an.round.calls an.peer = .replied an.args an.reply := by
  constructor
  · intro h
    cases a with
    | heartBeatReply r p =>
        obtain ⟨rd, hrd, h⟩ := Option.bind_eq_some_iff.mp h
        split at h
        · rename_i hc
          cases h
          exact ⟨r, rfl, hrd, hc⟩
        · cases h
    | _ => cases h
  · rintro ⟨r, rfl, hrd, hc⟩
    simp [answer?, hrd, hc]

/-- **Every way in which a step changes the log and the three tables of the peer `s`.** -/
inductive BookStep (st : Cluster n C) (a : Action n C) (s : Fin n) : Raft n C → Prop
  | same {rf : Raft n C} (log : rf.log = (st.rafts s).log)
      (next : rf.nextIndex = (st.rafts s).nextIndex)
      (mtch : rf.matchIndex = (st.rafts s).matchIndex)
      (table : rf.termToIndex = (st.rafts s).termToIndex)
      (leader : rf.state = .leader → (st.rafts s).state = .leader) : BookStep st a s rf
  | promote (hc : (st.rafts s).state = .candidate) : BookStep st a s (st.rafts s).conevrtToLeader
  | accept {r : ℕ} {rd : Round n C} {args : AppendEntriesArgs n C}
      (hrd : st.rounds[r]? = some rd) (hc : rd.calls s = .requested args)
      (hacc : (st.rafts s).accepts args) :
      BookStep st a s ({ st.rafts s with currentTerm := args.term }.accept args)
  /-- A failed answer. -/
  | backUp {an : Answer n C} {nextIndex : List ℤ}
      (hn : Slice.set? (st.rafts s).nextIndex (an.peer : ℕ)
        (Raft.backUp (st.rafts s).termToIndex (an.args.prevLogTerm - 1)) = some nextIndex)
      (hans : answer? st a = some an) (hl : an.round.leader = s) (hf : an.reply.success = false)
      (ht : an.reply.term ≤ (st.rafts s).currentTerm) :
      BookStep st a s { st.rafts s with nextIndex := nextIndex }
  /-- A success, which may also set `commitIndex`. -/
  | success {an : Answer n C} {nextIndex matchIndex : List ℤ} {commitIndex : ℤ}
      (hn : Slice.set? (st.rafts s).nextIndex (an.peer : ℕ)
        ((st.rafts s).log.length : ℤ) = some nextIndex)
      (hm : Slice.set? (st.rafts s).matchIndex (an.peer : ℕ)
        (((st.rafts s).log.length : ℤ) - 1) = some matchIndex)
      (hans : answer? st a = some an) (hl : an.round.leader = s) (hf : an.reply.success = true) :
      BookStep st a s { st.rafts s with
        nextIndex := nextIndex, matchIndex := matchIndex, commitIndex := commitIndex }
  | start {c : C} {t : ℕ} (hs : (st.rafts s).state = .leader) :
      BookStep st a s { st.rafts s with
        termToIndex := if (st.rafts s).currentTerm ≠ t then
          Function.update (st.rafts s).termToIndex (st.rafts s).currentTerm
            ((st.rafts s).log.length : ℤ) else (st.rafts s).termToIndex
        log := (st.rafts s).log ++ [⟨(st.rafts s).currentTerm, c⟩] }

namespace BookStep

variable {st : Cluster n C} {a : Action n C} {s : Fin n}

/-- Nothing happens to the books. -/
lemma refl : BookStep st a s (st.rafts s) := .same rfl rfl rfl rfl id

/-- A step that replaces the state of `p` changes the books of nobody else. -/
lemma of_update {p : Fin n} {rf : Raft n C} (h : BookStep st a p rf) :
    BookStep st a s (Function.update st.rafts p rf s) := by
  by_cases hs : s = p
  · subst hs
    simpa using h
  · simpa [hs] using refl

/-- A higher term leaves the books alone. -/
lemma raiseTerm (t : ℕ) (vote : Option (Fin n)) :
    BookStep st a s { (st.rafts s).raiseTerm t with votedFor := vote } := by
  unfold Raft.raiseTerm
  split_ifs
  · exact .same rfl rfl rfl rfl id
  · exact .same rfl rfl rfl rfl id

end BookStep

/-- **Every step is, for the books of each peer, one of the list.** -/
theorem Step.book {st st' : Cluster n C} {a : Action n C} (h : Step st a st') (s : Fin n) :
    BookStep st a s (st'.rafts s) := by
  cases h with
  | attemptEletion => exact .of_update (.same rfl rfl rfl rfl (by simp))
  | voteRefused => exact .of_update (.raiseTerm _ _)
  | voteGranted => exact .of_update (.raiseTerm _ _)
  | voteDemote => exact .of_update (.same rfl rfl rfl rfl (by simp))
  | promote hel hc ht hg hd hm hT hs => exact .of_update (.promote hs)
  | appendDemote => exact .of_update (.same rfl rfl rfl rfl (by simp))
  | appendReject => exact .of_update (.same rfl rfl rfl rfl id)
  | appendAccept hrd hc hs ht hi hp hpt =>
      exact .of_update (.accept hrd hc (Raft.accepts_iff.mpr ⟨hs, ht, hi, _, hp, hpt⟩))
  | beatDemote => exact .of_update (.same rfl rfl rfl rfl (by simp))
  | @beatBackUp r p rd args reply hrd hc hf ht nextIndex hn =>
      have hans : answer? st (.heartBeatReply r p) = some ⟨rd, p, args, reply⟩ :=
        answer?_eq_some_iff.mpr ⟨r, rfl, hrd, hc⟩
      exact .of_update (BookStep.backUp hn hans rfl hf ht)
  | @beatCount r p rd args reply hrd hc hf nextIndex matchIndex hn hm =>
      have hans : answer? st (.heartBeatReply r p) = some ⟨rd, p, args, reply⟩ :=
        answer?_eq_some_iff.mpr ⟨r, rfl, hrd, hc⟩
      exact .of_update (BookStep.success hn hm hans rfl hf)
  | @beatCommit r p rd args reply hrd hc hf nextIndex matchIndex hn hm =>
      have hans : answer? st (.heartBeatReply r p) = some ⟨rd, p, args, reply⟩ :=
        answer?_eq_some_iff.mpr ⟨r, rfl, hrd, hc⟩
      exact .of_update (BookStep.success hn hm hans rfl hf)
  | start hs ht => exact .of_update (.start hs)
  | apply => exact .of_update (.same rfl rfl rfl rfl id)
  | _ => exact .refl

/-! ## The table of the terms -/

/-- The table points into a log of length `len`; 0 stands for an absent key. -/
def PointsInto (termToIndex : ℕ → ℤ) (len : ℕ) : Prop :=
  ∀ t, 0 ≤ termToIndex t ∧ termToIndex t < len

/-- Backing up with such a table ends inside the log. -/
lemma PointsInto.backUp {termToIndex : ℕ → ℤ} {len : ℕ} (h : PointsInto termToIndex len) (i : ℕ) :
    1 ≤ Raft.backUp termToIndex i ∧ Raft.backUp termToIndex i ≤ len := by
  induction i with
  | zero =>
      have := h 0
      simp only [Raft.backUp]
      omega
  | succ i ih =>
      have := h (i + 1)
      simp only [Raft.backUp]
      split_ifs with h0
      · omega
      · exact ih

/-- `Start` records the index of the entry it appends. -/
lemma PointsInto.start {termToIndex : ℕ → ℤ} {len : ℕ} (h : PointsInto termToIndex len) (T : ℕ) :
    PointsInto termToIndex (len + 1) ∧
      PointsInto (Function.update termToIndex T (len : ℤ)) (len + 1) := by
  have hold : PointsInto termToIndex (len + 1) := by
    intro t
    have := h t
    push_cast
    omega
  refine ⟨hold, fun t => ?_⟩
  by_cases ht : t = T
  · subst ht
    rw [Function.update_self]
    push_cast
    omega
  · rw [Function.update_of_ne ht]
    exact hold t

/-- A request carries the table of its sender. -/
lemma Raft.heartBeatArgs_termToIndex {rf : Raft n C} {me index : Fin n}
    {args : AppendEntriesArgs n C} (h : rf.heartBeatArgs me index = some args) :
    args.termToIndex = rf.termToIndex := by
  simp only [Raft.heartBeatArgs, Option.bind_eq_bind, Option.bind_eq_some_iff] at h
  obtain ⟨next, -, prev, -, entries, -, h⟩ := h
  cases h
  rfl

/-- An accepted request leaves the follower with a log as long as the sender's was. -/
lemma accept_log_length_eq {rf sender : Raft n C} {me p : Fin n} {args : AppendEntriesArgs n C}
    (hb : sender.heartBeatArgs me p = some args) (hacc : rf.accepts args) :
    ({ rf with currentTerm := args.term }.accept args).log.length = sender.log.length := by
  obtain ⟨-, -, -, ⟨prev, hprev, -⟩, -⟩ := Raft.heartBeatArgs_eq_some hb
  obtain ⟨-, -, -, prev', hprev', -⟩ := Raft.accepts_iff.mp hacc
  have hlt := (List.getElem?_eq_some_iff.mp hprev).1
  have hlt' := (List.getElem?_eq_some_iff.mp hprev').1
  rw [accept_log_eq hb, List.length_append, List.length_take, List.length_drop]
  omega

/-- One step keeps the table of a peer inside its log, when the requests under way carry a table
and entries that fit together. -/
lemma BookStep.pointsInto {st : Cluster n C} {a : Action n C} {s : Fin n} {rf : Raft n C}
    (h : BookStep st a s rf)
    (hok : PointsInto (st.rafts s).termToIndex (st.rafts s).log.length)
    (hreq : ∀ {r : ℕ} {rd : Round n C} {args : AppendEntriesArgs n C},
      st.rounds[r]? = some rd → rd.calls s = .requested args → (st.rafts s).accepts args →
      PointsInto args.termToIndex
        ({ st.rafts s with currentTerm := args.term }.accept args).log.length) :
    PointsInto rf.termToIndex rf.log.length := by
  cases h with
  | same log _ _ table =>
      rw [log, table]
      exact hok
  | promote => exact hok
  | accept hrd hc hacc => exact hreq hrd hc hacc
  | backUp => exact hok
  | success => exact hok
  | start hs =>
      obtain ⟨hkeep, hnew⟩ := hok.start (st.rafts s).currentTerm
      simp only [List.length_append, List.length_singleton]
      split_ifs
      · exact hnew
      · exact hkeep

section Runs

variable [Inhabited C] {tr : Trace n C} {st : Cluster n C}

/-- **Every table points into the log of its own peer**, in every state of every run. -/
theorem termToIndex_of_run (h : (cluster n C).Run tr st) {x : Cluster n C} (hx : Visited tr st x)
    (s : Fin n) : PointsInto (x.rafts s).termToIndex (x.rafts s).log.length := by
  induction h generalizing x s with
  | init =>
      rcases hx with rfl | ⟨a, ha⟩
      · intro t
        simp [cluster, Cluster.make, make]
      · exact absurd ha List.not_mem_nil
  | @step tr z y a h hs ih =>
      rcases hx with rfl | ⟨b, hb⟩
      · refine ((Step.of_cluster hs).book s).pointsInto (ih (Visited.now _ _) s) ?_
        -- table and length both come from the state in which the request was built
        intro r rd args hrd hc hacc
        obtain ⟨w, hb⟩ := (built_of_run h r rd hrd).2 s args (by simp [hc])
        rw [accept_log_length_eq hb.eq hacc, Raft.heartBeatArgs_termToIndex hb.eq]
        exact ih (hb.visited _) _
      · exact ih (Visited.of_cons hb) s

end Runs

/-! ## The books of a leader -/

/-- One entry for each peer, each inside the log. -/
structure BooksOk (rf : Raft n C) : Prop where
  next_length : rf.nextIndex.length = n
  match_length : rf.matchIndex.length = n
  next : ∀ v ∈ rf.nextIndex, 1 ≤ v ∧ v ≤ (rf.log.length : ℤ)
  mtch : ∀ v ∈ rf.matchIndex, 0 ≤ v ∧ v ≤ (rf.log.length : ℤ) - 1

namespace BookStep

variable {st : Cluster n C} {a : Action n C} {s : Fin n} {rf : Raft n C}

/-- No `nextIndex` falls below 1, in any role. -/
lemma next_pos (h : BookStep st a s rf)
    (htable : PointsInto (st.rafts s).termToIndex (st.rafts s).log.length)
    (hok : ∀ v ∈ (st.rafts s).nextIndex, 1 ≤ v) : ∀ v ∈ rf.nextIndex, 1 ≤ v := by
  have hlen := htable 0
  cases h with
  | same _ next =>
      rw [next]
      exact hok
  | promote =>
      intro v hv
      rw [List.eq_of_mem_replicate hv]
      omega
  | accept => exact hok
  | backUp hn =>
      intro v hv
      rcases (Slice.of_set?_eq_some hn).2 v hv with hv | rfl
      · exact hok v hv
      · exact (htable.backUp _).1
  | success hn hm =>
      intro v hv
      rcases (Slice.of_set?_eq_some hn).2 v hv with hv | rfl
      · exact hok v hv
      · omega
  | start => exact hok

/-- A promotion sets the books up, and every step of a leader keeps them in range. -/
lemma booksOk (h : BookStep st a s rf)
    (htable : PointsInto (st.rafts s).termToIndex (st.rafts s).log.length)
    (hok : (st.rafts s).state = .leader → BooksOk (st.rafts s)) (hs : rf.state = .leader) :
    BooksOk rf := by
  have hlen := htable 0
  cases h with
  | same log next mtch table leader =>
      have hb := hok (leader hs)
      refine ⟨by rw [next, hb.next_length], by rw [mtch, hb.match_length], ?_, ?_⟩
      · rw [next, log]
        exact hb.next
      · rw [mtch, log]
        exact hb.mtch
  | promote =>
      refine ⟨List.length_replicate, List.length_replicate, fun v hv => ?_, fun v hv => ?_⟩
      · rw [List.eq_of_mem_replicate hv]
        exact ⟨by omega, le_refl _⟩
      · rw [List.eq_of_mem_replicate hv, Raft.conevrtToLeader_log]
        omega
  | accept hrd hc hacc =>
      rw [Raft.accept_state, (Raft.accepts_iff.mp hacc).1] at hs
      cases hs
  | backUp hn =>
      have hb := hok hs
      obtain ⟨hl, hmem⟩ := Slice.of_set?_eq_some hn
      refine ⟨hl.trans hb.next_length, hb.match_length, fun v hv => ?_, hb.mtch⟩
      rcases hmem v hv with hv | rfl
      · exact hb.next v hv
      · exact htable.backUp _
  | success hn hm =>
      have hb := hok hs
      obtain ⟨hl, hmem⟩ := Slice.of_set?_eq_some hn
      obtain ⟨hl', hmem'⟩ := Slice.of_set?_eq_some hm
      refine ⟨hl.trans hb.next_length, hl'.trans hb.match_length, fun v hv => ?_, fun v hv => ?_⟩
      · rcases hmem v hv with hv | rfl
        · exact hb.next v hv
        · exact ⟨by omega, le_refl _⟩
      · rcases hmem' v hv with hv | rfl
        · exact hb.mtch v hv
        · exact ⟨by omega, le_refl _⟩
  | start hl =>
      have hb := hok hl
      refine ⟨hb.next_length, hb.match_length, fun v hv => ?_, fun v hv => ?_⟩
      · have := hb.next v hv
        simp only [List.length_append, List.length_singleton]
        omega
      · have := hb.mtch v hv
        simp only [List.length_append, List.length_singleton]
        omega

end BookStep

/-! ## The calls of `Start` -/

/-- What a successful `Start` on `s` returns in this step, with the entry that it stands for. -/
def started (s : Fin n) (q : Cluster n C × Action n C) : Option (ℤ × LogEntry C) :=
  match q.2 with
  | .start s' c =>
      if s' = s then
        ((q.1.rafts s).start c).bind fun r =>
          if r.2.2.2 then some (r.2.1, ⟨r.2.2.1, c⟩) else none
      else none
  | _ => none

/-- The successful calls of `Start` on `s`, in the order in which they were made. -/
def starts (s : Fin n) (seg : Trace n C) : List (ℤ × LogEntry C) :=
  seg.reverse.filterMap (started s)

/-- The commands that a leader was given, up to one more step. -/
lemma starts_cons (s : Fin n) (q : Cluster n C × Action n C) (seg : Trace n C) :
    starts s (q :: seg) = starts s seg ++ (started s q).toList := by
  unfold starts
  rw [List.reverse_cons, List.filterMap_append]
  cases h : started s q with
  | none => simp [h]
  | some r => simp [h]

/-- A step of a leader that stays one appends what `Start` is called for, and `Start` returns the
index behind the end of the log. -/
lemma Step.started {st st' : Cluster n C} {a : Action n C} (h : Step st a st') {s : Fin n}
    (hs : (st.rafts s).state = .leader) (hs' : (st'.rafts s).state = .leader) :
    (st'.rafts s).log = (st.rafts s).log ++ ((started s (st, a)).map Prod.snd).toList ∧
      ∀ r ∈ started s (st, a), r.1 = ((st.rafts s).log.length : ℤ) := by
  by_cases ha : ∃ c, a = .start s c
  · obtain ⟨c, rfl⟩ := ha
    cases h with
    | idle h => exact absurd hs h
    | start _ ht => simp [Consensus.started, Raft.start, hs, ht, Raft.lastLogIndex]
  · have hnone : Consensus.started s (st, a) = none := by
      unfold Consensus.started
      split
      · rename_i s' c heq
        rw [if_neg]
        rintro rfl
        exact ha ⟨c, heq⟩
      · rfl
    rcases (h.peer s).log_cases with hlog | ⟨c, hc, -⟩ | ⟨r, rd, args, -, -, -, hacc, -⟩
    · simp [hnone, hlog]
    · exact absurd ⟨c, hc⟩ ha
    · rw [(Raft.accepts_iff.mp hacc).1] at hs
      cases hs

section Runs

variable [Inhabited C] {tr : Trace n C} {st : Cluster n C}

/-- **The books of every leader are in range**, in every run, and no `nextIndex` falls below 1. -/
theorem booksOk_of_run (h : (cluster n C).Run tr st) (s : Fin n) :
    ((st.rafts s).state = .leader → BooksOk (st.rafts s)) ∧
      ∀ v ∈ (st.rafts s).nextIndex, 1 ≤ v := by
  induction h with
  | init => exact ⟨fun hs => by simp [cluster, Cluster.make, make] at hs,
      fun v hv => by simp [cluster, Cluster.make, make] at hv⟩
  | step h hs ih =>
      have hbook := (Step.of_cluster hs).book s
      have htable := termToIndex_of_run h (Visited.now _ _) s
      exact ⟨hbook.booksOk htable ih.1, hbook.next_pos htable ih.2⟩

/-- **The log of a reign**: as long as `s` leads, its log is extended by its successful calls of
`Start` and by nothing else, and these return consecutive indices. -/
theorem reign_log {seg : Trace n C} {x : Cluster n C} {s : Fin n}
    (h : (cluster n C).Run (seg ++ tr) st) (hx : (cluster n C).Run tr x)
    (hseg : ∀ q ∈ seg, (q.1.rafts s).state = .leader) (hs : (st.rafts s).state = .leader) :
    (st.rafts s).log = (x.rafts s).log ++ (starts s seg).map Prod.snd ∧
      (starts s seg).map Prod.fst =
        (List.range (starts s seg).length).map fun i : ℕ => ((x.rafts s).log.length : ℤ) + i := by
  induction seg generalizing st with
  | nil =>
      rw [h.unique hx]
      simp [starts]
  | cons q seg ih =>
      obtain ⟨z, a⟩ := q
      cases h with
      | step h hstep =>
          have hz : (z.rafts s).state = .leader := hseg (z, a) List.mem_cons_self
          obtain ⟨hlog, hidx⟩ := ih h (fun q hq => hseg q (List.mem_cons_of_mem _ hq)) hz
          obtain ⟨hlog', hidx'⟩ := (Step.of_cluster hstep).started hz hs
          rw [starts_cons]
          cases hq : started s (z, a) with
          | none =>
              rw [hq, hlog] at hlog'
              exact ⟨by simpa using hlog', by simpa using hidx⟩
          | some r =>
              have hr : r.1 = ((x.rafts s).log.length : ℤ) + (starts s seg).length := by
                rw [hidx' r hq, hlog]
                simp
              rw [hq] at hlog'
              refine ⟨by simp [hlog', hlog], ?_⟩
              simp [hidx, hr, List.range_succ]

/-- **A reign**: while `s` leads, its log changes only by `Start` appending at the end; the
successful calls of `Start` return consecutive indices, each the position of its own command; and
`nextIndex` and `matchIndex` are in range for every peer. The reign is any stretch `seg` of a run
throughout which `s` leads, from the state `x` to the state `st`. -/
theorem reign {seg : Trace n C} {x : Cluster n C} {s : Fin n}
    (h : (cluster n C).Run (seg ++ tr) st) (hx : (cluster n C).Run tr x)
    (hseg : ∀ q ∈ seg, (q.1.rafts s).state = .leader) (hs : (st.rafts s).state = .leader) :
    (st.rafts s).log = (x.rafts s).log ++ (starts s seg).map Prod.snd ∧
    (starts s seg).map Prod.fst =
      (List.range (starts s seg).length).map (fun i : ℕ => ((x.rafts s).log.length : ℤ) + i) ∧
    (∀ r ∈ starts s seg, 0 ≤ r.1 ∧ (st.rafts s).log[r.1.toNat]? = some r.2) ∧
    ∀ i : Fin n,
      (∃ v, (st.rafts s).nextIndex[(i : ℕ)]? = some v ∧ 1 ≤ v ∧ v ≤ ((st.rafts s).log.length : ℤ)) ∧
      ∃ v, (st.rafts s).matchIndex[(i : ℕ)]? = some v ∧ 0 ≤ v ∧
        v ≤ ((st.rafts s).log.length : ℤ) - 1 := by
  obtain ⟨hlog, hidx⟩ := reign_log h hx hseg hs
  have hb := (booksOk_of_run h s).1 hs
  refine ⟨hlog, hidx, fun r hr => ?_, fun i => ⟨?_, ?_⟩⟩
  · obtain ⟨i, hi, rfl⟩ := List.mem_iff_getElem.mp hr
    have hfst : (starts s seg)[i].1 = ((x.rafts s).log.length : ℤ) + i := by
      have := congrArg (fun l => l[i]?) hidx
      rw [List.getElem?_map, List.getElem?_map, List.getElem?_range hi,
        List.getElem?_eq_getElem hi] at this
      exact Option.some.inj this
    refine ⟨by omega, ?_⟩
    rw [hfst, hlog, List.getElem?_append_right (by omega)]
    have hnat : (((x.rafts s).log.length : ℤ) + i).toNat - (x.rafts s).log.length = i := by omega
    rw [hnat]
    simp [hi]
  · have hi : (i : ℕ) < (st.rafts s).nextIndex.length := by
      rw [hb.next_length]
      exact i.isLt
    exact ⟨_, List.getElem?_eq_getElem hi, hb.next _ (List.getElem_mem hi)⟩
  · have hi : (i : ℕ) < (st.rafts s).matchIndex.length := by
      rw [hb.match_length]
      exact i.isLt
    exact ⟨_, List.getElem?_eq_getElem hi, hb.mtch _ (List.getElem_mem hi)⟩

/-- The second reign of 0, in term 3. A refusal that 1 sent in the first reign comes in between two
calls of `Start` and backs `nextIndex[1]` up. -/
theorem reign_run : ∃ seg tr x st, (cluster 2 ℕ).Run (seg ++ tr) st ∧ (cluster 2 ℕ).Run tr x ∧
    (∀ q ∈ seg, (q.1.rafts 0).state = .leader) ∧ (st.rafts 0).state = .leader ∧
    starts 0 seg = [(2, ⟨3, 11⟩), (3, ⟨3, 12⟩)] ∧ (st.rafts 0).nextIndex = [2, 1] ∧
    (st.rafts 0).log = (x.rafts 0).log ++ [⟨3, 11⟩, ⟨3, 12⟩] ∧
    (st.rafts 0).log[3]? = some ⟨3, 12⟩ := by
  obtain ⟨tr, st, h, hseg, hs, hst, hnext⟩ := (cluster 2 ℕ).exists_run_of_exec
    [.timer 0, .attemptEletion 0, .requestVote 0 1, .voteReply 0 1, .start 0 10, .heartBeat 0,
      .heartBeat 0, .heartBeatArgs 0 1, .heartBeatArgs 1 1, .timer 1, .attemptEletion 1,
      .appendEntries 0 1, .appendEntries 1 1, .heartBeatReply 1 1, .timer 0, .attemptEletion 0,
      .requestVote 2 1, .voteReply 2 1, .start 0 11, .heartBeatReply 0 1, .start 0 12]
    (fun tr st => (∀ q ∈ tr.take 3, (q.1.rafts 0).state = .leader) ∧
      (st.rafts 0).state = .leader ∧ starts 0 (tr.take 3) = [(2, ⟨3, 11⟩), (3, ⟨3, 12⟩)] ∧
      (st.rafts 0).nextIndex = [2, 1]) (by decide)
  rw [← List.take_append_drop 3 tr] at h
  obtain ⟨x, hx⟩ := h.of_append
  obtain ⟨hlog, -, hpos, -⟩ := reign h hx hseg hs
  rw [hst] at hlog hpos
  exact ⟨_, _, x, st, h, hx, hseg, hs, hst, hnext, hlog, (hpos (3, ⟨3, 12⟩) (by simp)).2⟩

end Runs

end GoLabs.Consensus
