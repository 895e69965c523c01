import GoLabs.Consensus.Bookkeeping
import GoLabs.Consensus.Commit
import GoLabs.Consensus.Indices

/-!
# Stale answers

The reply handler of `HeartBeat` does not look at the role or the term again. An answer that comes
in after the sender has stepped down, or in a later reign, is booked like any other: it moves
`nextIndex` and `matchIndex`, and it moves the `commitIndex` of a follower (`staleAnswer_fails`).

What the handler writes depends on the log and the map as they are now, and on nothing else, so
whether a stale answer changes anything can be read off the run before it. It changes nothing when
it only repeats what was booked last for the peer (`staleAnswer`):

* `lastBooking s p tr` is what was last written into the tables of `s` for `p`: at a promotion of
  `s`, for a success of `p` or for a refusal of `p`. The tables hold it (`written_of_run`).
* `repeats` says that the answer in hand is of the same kind, and that the log, or the map, is what
  it was then in what matters for it. An answer that makes a majority also sets `commitIndex`; that
  changes nothing when `s` has set it before and the log has had its present length ever since
  (`committedSince`).
* `staleRepeats` says so of every stale answer of a run.
-/

namespace GoLabs.Consensus

open GoLabs.Lib

variable {n : ℕ} {C : Type}

/-! ## What the handler leaves alone -/

/-- What the handler writes for the answer of `p` is there already.
Source: `raft.go` `HeartBeat` -/
def Raft.settled (rf : Raft n C) (rd : Round n C) (p : Fin n) (args : AppendEntriesArgs n C)
    (reply : AppendEntriesReply) : Bool :=
  if reply.success then
    rf.nextIndex[(p : ℕ)]? = some (rf.log.length : ℤ) ∧
      rf.matchIndex[(p : ℕ)]? = some ((rf.log.length : ℤ) - 1) ∧
      (rd.commits p → rf.commitIndex = (rf.log.length : ℤ) - 1)
  else rf.nextIndex[(p : ℕ)]? = some (Raft.backUp rf.termToIndex (args.prevLogTerm - 1))

/-- The handler leaves the two tables and `commitIndex` alone exactly when they are settled. -/
lemma Raft.heartBeatReply_settled {rf : Raft n C} {rd : Round n C} {p : Fin n}
    {args : AppendEntriesArgs n C} {reply : AppendEntriesReply}
    (hc : rd.calls p = .replied args reply) (hn : rf.nextIndex.length = n)
    (hm : rf.matchIndex.length = n) (hle : reply.term ≤ rf.currentTerm)
    (calls : Fin n → Rpc (AppendEntriesArgs n C) AppendEntriesReply) :
    ∃ r, rf.heartBeatReply { rd with calls := calls } p args reply = some r ∧
      ((r.1.commitIndex = rf.commitIndex ∧ r.1.nextIndex = rf.nextIndex ∧
        r.1.matchIndex = rf.matchIndex) ↔ rf.settled rd p args reply) := by
  have hpn : (p : ℕ) < rf.nextIndex.length := by
    rw [hn]
    exact p.isLt
  have hpm : (p : ℕ) < rf.matchIndex.length := by
    rw [hm]
    exact p.isLt
  obtain ⟨back, hback, hbackeq⟩ :=
    Slice.exists_set? hpn (Raft.backUp rf.termToIndex (args.prevLogTerm - 1))
  obtain ⟨next, hnext, hnexteq⟩ := Slice.exists_set? hpn (rf.log.length : ℤ)
  obtain ⟨mtch, hmatch, hmatcheq⟩ := Slice.exists_set? hpm ((rf.log.length : ℤ) - 1)
  cases hr : reply.success with
  | false =>
      refine ⟨({ rf with nextIndex := back }, { rd with calls := calls }), ?_, ?_⟩
      · simp [Raft.heartBeatReply, hr, not_lt.mpr hle, hback]
      · simp [Raft.settled, hr, hbackeq]
  | true =>
      have hcm : rd.commits p ↔ ¬ (rd.done = true ∨ rd.count + 1 ≤ n / 2) := by
        simp [Round.commits, hc, hr]
      by_cases hd : rd.done = true ∨ rd.count + 1 ≤ n / 2
      · refine ⟨({ rf with nextIndex := next, matchIndex := mtch },
          { rd with calls := calls, count := rd.count + 1 }), ?_, ?_⟩
        · simp only [Raft.heartBeatReply, hr, hnext, hmatch, Bool.not_true, Bool.false_eq_true,
            if_false, Option.bind_eq_bind, Option.bind_some, if_pos hd]
        · simp only [Raft.settled, hr, if_true, decide_eq_true_eq, hnexteq, hmatcheq, hcm]
          constructor
          · rintro ⟨-, hnext', hmatch'⟩
            exact ⟨hnext', hmatch', fun hnd => absurd hd hnd⟩
          · rintro ⟨hnext', hmatch', -⟩
            exact ⟨trivial, hnext', hmatch'⟩
      · refine ⟨({ rf with
            nextIndex := next, matchIndex := mtch, commitIndex := (rf.log.length : ℤ) - 1 },
          { rd with calls := calls, count := rd.count + 1, done := true }), ?_, ?_⟩
        · simp only [Raft.heartBeatReply, hr, hnext, hmatch, Bool.not_true, Bool.false_eq_true,
            if_false, Option.bind_eq_bind, Option.bind_some, if_neg hd]
        · simp only [Raft.settled, hr, if_true, decide_eq_true_eq, hnexteq, hmatcheq, hcm, hd,
            not_false_eq_true, forall_const]
          constructor
          · rintro ⟨hcommit, hnext', hmatch'⟩
            exact ⟨hnext', hmatch', hcommit.symm⟩
          · rintro ⟨hnext', hmatch', hcommit⟩
            exact ⟨hcommit.symm, hnext', hmatch'⟩

/-- The tables have one entry for each peer. -/
def Raft.Booked (rf : Raft n C) : Prop := rf.nextIndex.length = n ∧ rf.matchIndex.length = n

/-- The length of the tables never changes again. -/
lemma BookStep.booked {st : Cluster n C} {a : Action n C} {s : Fin n} {rf : Raft n C}
    (h : BookStep st a s rf) (hb : (st.rafts s).Booked) : rf.Booked := by
  obtain ⟨hn, hm⟩ := hb
  cases h with
  | same _ next mtch => exact ⟨by rw [next, hn], by rw [mtch, hm]⟩
  | promote => exact ⟨List.length_replicate, List.length_replicate⟩
  | accept => exact ⟨hn, hm⟩
  | backUp h => exact ⟨(Slice.of_set?_eq_some h).1.trans hn, hm⟩
  | success h h' =>
      exact ⟨(Slice.of_set?_eq_some h).1.trans hn, (Slice.of_set?_eq_some h').1.trans hm⟩
  | start => exact ⟨hn, hm⟩

/-! ## The last booking -/

/-- What a step writes into the tables that one peer keeps about another. -/
inductive Booking
  /-- The peer is promoted, with a log of this length. -/
  | promoted (length : ℕ)
  /-- A success is booked, with a log of this length. -/
  | success (length : ℕ)
  /-- A refused request of this `PrevLogTerm` is booked, with this map. -/
  | refusal (prevLogTerm : ℕ) (termToIndex : ℕ → ℤ)

/-- What the step books on `s` for `p`. A refusal of a higher term is not booked: `s` steps down.
Source: `raft.go` `conevrtToLeader`, `HeartBeat` -/
def booking (s p : Fin n) (q : Cluster n C × Action n C) : Option Booking :=
  if becomesLeader q.1 q.2 s then some (.promoted (q.1.rafts s).log.length)
  else (answer? q.1 q.2).bind fun an =>
    if an.round.leader = s ∧ an.peer = p then
      if an.reply.success then some (.success (q.1.rafts s).log.length)
      else if an.reply.term ≤ (q.1.rafts s).currentTerm then
        some (.refusal an.args.prevLogTerm (q.1.rafts s).termToIndex)
      else none
    else none

/-- What `s` has booked last for `p`; a trace has its latest step first. -/
def lastBooking (s p : Fin n) (tr : Trace n C) : Option Booking := tr.findSome? (booking s p)

/-- The tables hold what the booking has written for `p`. -/
def Booking.Written (rf : Raft n C) (p : Fin n) : Booking → Prop
  | promoted length =>
      rf.nextIndex[(p : ℕ)]? = some (length : ℤ) ∧ rf.matchIndex[(p : ℕ)]? = some 0
  | success length =>
      rf.nextIndex[(p : ℕ)]? = some (length : ℤ) ∧
        rf.matchIndex[(p : ℕ)]? = some ((length : ℤ) - 1)
  | refusal prevLogTerm termToIndex =>
      rf.nextIndex[(p : ℕ)]? = some (Raft.backUp termToIndex (prevLogTerm - 1))

/-- A booking is not touched by what leaves the entries for `p` alone. -/
lemma Booking.Written.congr {b : Booking} {rf rf' : Raft n C} {p : Fin n} (h : b.Written rf p)
    (hnext : rf'.nextIndex[(p : ℕ)]? = rf.nextIndex[(p : ℕ)]?)
    (hmatch : rf'.matchIndex[(p : ℕ)]? = rf.matchIndex[(p : ℕ)]?) : b.Written rf' p := by
  cases b with
  | promoted length => exact ⟨hnext.trans h.1, hmatch.trans h.2⟩
  | success length => exact ⟨hnext.trans h.1, hmatch.trans h.2⟩
  | refusal prevLogTerm termToIndex => exact hnext.trans h

section Steps

variable {x y : Cluster n C} {a : Action n C} {s p : Fin n} {an : Answer n C}

/-- **What the handler of an answer does to the tables of its peer**: nothing if the peer steps
down, and else it writes the entry of the peer that has answered. -/
lemma tables_of_answer (hs : x.step a = some y) (hans : answer? x a = some an)
    (hl : an.round.leader = s) :
    (an.reply.success = false ∧ (x.rafts s).currentTerm < an.reply.term) ∨
    (an.reply.success = false ∧
      Slice.set? (x.rafts s).nextIndex (an.peer : ℕ)
        (Raft.backUp (x.rafts s).termToIndex (an.args.prevLogTerm - 1)) =
          some (y.rafts s).nextIndex) ∨
    (an.reply.success = true ∧
      Slice.set? (x.rafts s).nextIndex (an.peer : ℕ) ((x.rafts s).log.length : ℤ) =
        some (y.rafts s).nextIndex ∧
      Slice.set? (x.rafts s).matchIndex (an.peer : ℕ) (((x.rafts s).log.length : ℤ) - 1) =
        some (y.rafts s).matchIndex) := by
  obtain ⟨rd, p, args, reply⟩ := an
  obtain ⟨r, rfl, hrd, hcall⟩ := answer?_eq_some_iff.mp hans
  subst hl
  cases Step.of_step hs with
  | idle h => exact h.elim
  | beatDemote hrd' hc hf ht =>
      obtain rfl := Option.some.inj (hrd.symm.trans hrd')
      cases hcall.symm.trans hc
      exact Or.inl ⟨hf, ht⟩
  | beatBackUp hrd' hc hf ht hn =>
      obtain rfl := Option.some.inj (hrd.symm.trans hrd')
      cases hcall.symm.trans hc
      exact Or.inr (Or.inl ⟨hf, by simpa using hn⟩)
  | beatCount hrd' hc hf hn hm =>
      obtain rfl := Option.some.inj (hrd.symm.trans hrd')
      cases hcall.symm.trans hc
      exact Or.inr (Or.inr ⟨hf, by simpa using hn, by simpa using hm⟩)
  | beatCommit hrd' hc hf hn hm =>
      obtain rfl := Option.some.inj (hrd.symm.trans hrd')
      cases hcall.symm.trans hc
      exact Or.inr (Or.inr ⟨hf, by simpa using hn, by simpa using hm⟩)

/-- A step leaves in the tables what it books. -/
lemma written_of_booking {b : Booking} (hs : x.step a = some y)
    (hb : booking s p (x, a) = some b) : b.Written (y.rafts s) p := by
  unfold booking at hb
  split_ifs at hb with hl
  · cases hb
    obtain ⟨y', hy, hnl, hl⟩ := becomesLeader_iff.mp hl
    obtain rfl := Option.some.inj (hs.symm.trans hy)
    rcases ((Step.of_step hs).peer s).leader_cases hl with hl' | ⟨-, hrf, -⟩
    · exact absurd hl' hnl
    · rw [hrf]
      exact ⟨List.getElem?_replicate_of_lt p.isLt, List.getElem?_replicate_of_lt p.isLt⟩
  · obtain ⟨an, hans, hwrite⟩ := Option.bind_eq_some_iff.mp hb
    split_ifs at hwrite with hsp hr ht
    · obtain ⟨hl, rfl⟩ := hsp
      cases hwrite
      rcases tables_of_answer hs hans hl with ⟨hf, -⟩ | ⟨hf, -⟩ | ⟨-, hn, hm⟩
      · simp [hr] at hf
      · simp [hr] at hf
      · rw [Booking.Written, Slice.getElem?_of_set? hn, Slice.getElem?_of_set? hm, if_pos rfl,
          if_pos rfl]
        exact ⟨rfl, rfl⟩
    · obtain ⟨hl, rfl⟩ := hsp
      cases hwrite
      rcases tables_of_answer hs hans hl with ⟨-, hlt⟩ | ⟨-, hn⟩ | ⟨hf, -⟩
      · exact absurd ht (not_le.mpr hlt)
      · rw [Booking.Written, Slice.getElem?_of_set? hn, if_pos rfl]
      · exact absurd hf hr

/-- A step that books nothing for `p` leaves the entries for `p` as they are. -/
lemma tables_of_booking_eq_none (hs : x.step a = some y) (hb : booking s p (x, a) = none) :
    (y.rafts s).nextIndex[(p : ℕ)]? = (x.rafts s).nextIndex[(p : ℕ)]? ∧
      (y.rafts s).matchIndex[(p : ℕ)]? = (x.rafts s).matchIndex[(p : ℕ)]? := by
  unfold booking at hb
  split_ifs at hb with hl
  have hbook := (Step.of_step hs).book s
  have hlead : (x.rafts s).state = .candidate → y.rafts s ≠ (x.rafts s).conevrtToLeader :=
    fun hc heq => hl (becomesLeader_iff.mpr ⟨y, hs, by simp [hc], by simp [heq]⟩)
  -- an answer that is booked is the answer of another peer
  have hne : ∀ {an : Answer n C}, answer? x a = some an → an.round.leader = s →
      (an.reply.success = true ∨ an.reply.term ≤ (x.rafts s).currentTerm) →
      (an.peer : ℕ) ≠ (p : ℕ) := by
    intro an hans hl hor heq
    rw [hans, Option.bind_some, if_pos ⟨hl, Fin.ext heq⟩] at hb
    split_ifs at hb with hr ht
    exact hor.elim hr ht
  generalize y.rafts s = rf at hbook hlead ⊢
  cases hbook with
  | same _ next mtch => exact ⟨by rw [next], by rw [mtch]⟩
  | promote hc => exact absurd rfl (hlead hc)
  | accept => exact ⟨rfl, rfl⟩
  | backUp hn hans hl hf ht =>
      exact ⟨by rw [Slice.getElem?_of_set? hn, if_neg (hne hans hl (Or.inr ht))], rfl⟩
  | success hn hm hans hl hf =>
      have hp := hne hans hl (Or.inl hf)
      exact ⟨by rw [Slice.getElem?_of_set? hn, if_neg hp],
        by rw [Slice.getElem?_of_set? hm, if_neg hp]⟩
  | start => exact ⟨rfl, rfl⟩

end Steps

/-- **The tables hold what was booked last**, in every run and in every role. -/
theorem written_of_run [Inhabited C] {tr : Trace n C} {st : Cluster n C}
    (h : (cluster n C).Run tr st) {s p : Fin n} {b : Booking}
    (hb : lastBooking s p tr = some b) : b.Written (st.rafts s) p := by
  induction h with
  | init => cases hb
  | @step tr x y a h hs ih =>
      rw [lastBooking, List.findSome?_cons] at hb
      cases hq : booking s p (x, a) with
      | some b' =>
          rw [hq] at hb
          cases hb
          exact written_of_booking hs hq
      | none =>
          rw [hq] at hb
          obtain ⟨hnext, hmatch⟩ := tables_of_booking_eq_none hs hq
          exact (ih hb).congr hnext hmatch

/-! ## Repetitions -/

/-- Some step of the trace has set `commitIndex` on `s` for an answer, and since that step the log
of `s` has had this length. -/
def committedSince (s : Fin n) (length : ℕ) : Trace n C → Bool
  | [] => false
  | q :: tr => (q.1.rafts s).log.length = length ∧
      (committer q.1 q.2 = some s ∨ committedSince s length tr)

/-- The answer says what was booked: an answer of the same kind, a success with a log as long as it
is now, or a refusal of a request with the same `PrevLogTerm` and with a map that is the same below
it. A success says the same as a promotion while there is nothing in the log but the placeholder. -/
def Booking.says (rf : Raft n C) (an : Answer n C) : Booking → Bool
  | promoted length => an.reply.success ∧ length = 1 ∧ rf.log.length = 1
  | success length => an.reply.success ∧ length = rf.log.length
  | refusal prevLogTerm termToIndex => an.reply.success = false ∧
      prevLogTerm = an.args.prevLogTerm ∧ ∀ t < prevLogTerm, termToIndex t = rf.termToIndex t

/-- The answer in hand says nothing new: it says what was booked last for the peer, and if it makes
a majority, the log has been committed since it has its present length. -/
def repeats (tr : Trace n C) (st : Cluster n C) (an : Answer n C) : Bool :=
  ((lastBooking an.round.leader an.peer tr).any fun b =>
    b.says (st.rafts an.round.leader) an) ∧
  (an.round.commits an.peer →
    committedSince an.round.leader (st.rafts an.round.leader).log.length tr)

/-- In this step a stale answer is handled: the sender does not lead, or is in another term than
the request, and the answer does not make it step down. -/
def stale (st : Cluster n C) (a : Action n C) : Bool :=
  (answer? st a).any fun an =>
    ((st.rafts an.round.leader).state ≠ .leader ∨
      (st.rafts an.round.leader).currentTerm ≠ an.args.term) ∧
    an.reply.term ≤ (st.rafts an.round.leader).currentTerm

/-- Every stale answer of the run says nothing new when it is handled. -/
def staleRepeats : Trace n C → Bool
  | [] => true
  | q :: tr => (stale q.1 q.2 → (answer? q.1 q.2).any (repeats tr q.1)) ∧ staleRepeats tr

/-- Backing up looks only at the terms from 1 on that are not greater. -/
lemma Raft.backUp_congr {termToIndex termToIndex' : ℕ → ℤ} {i : ℕ}
    (h : ∀ t, 1 ≤ t → t ≤ i → termToIndex t = termToIndex' t) :
    Raft.backUp termToIndex i = Raft.backUp termToIndex' i := by
  induction i with
  | zero => rfl
  | succ i ih =>
      rw [Raft.backUp, Raft.backUp, h (i + 1) (by omega) (le_refl _),
        ih fun t ht hti => h t ht (by omega)]

/-- A step that leaves a log of the same length leaves a `commitIndex` at its end there. -/
lemma PeerStep.commitIndex_end {st : Cluster n C} {a : Action n C} {s : Fin n} {rf : Raft n C}
    (h : PeerStep st a s rf) (hlen : rf.log.length = (st.rafts s).log.length)
    (hc : (st.rafts s).commitIndex = ((st.rafts s).log.length : ℤ) - 1) :
    rf.commitIndex = (rf.log.length : ℤ) - 1 := by
  cases h with
  | quiet _ _ _ _ commit => rw [commit, hc, hlen]
  | raise => simpa using hc
  | vote => simpa using hc
  | @accept r rd args =>
      obtain ⟨hge, hle⟩ := accept_commitIndex { st.rafts s with currentTerm := args.term } args (by
        rw [hlen]
        exact hc.le)
      have hold : ({ st.rafts s with currentTerm := args.term } : Raft n C).commitIndex =
          (st.rafts s).commitIndex := rfl
      omega
  | commit => rfl
  | start => simp at hlen
  | _ => exact hc

section Runs

variable [Inhabited C] {tr : Trace n C} {st : Cluster n C}

/-- A `commitIndex` that was set to the end of the log is there as long as the log has the same
length. -/
lemma commitIndex_of_committedSince (h : (cluster n C).Run tr st) {s : Fin n}
    (hc : committedSince s (st.rafts s).log.length tr) :
    (st.rafts s).commitIndex = ((st.rafts s).log.length : ℤ) - 1 := by
  generalize hlen : (st.rafts s).log.length = length at hc
  induction h with
  | init => cases hc
  | @step tr x y a h hs ih =>
      simp only [committedSince, Bool.decide_and, Bool.decide_or, Bool.and_eq_true, Bool.or_eq_true,
        decide_eq_true_eq] at hc
      obtain ⟨hx, hcom | hcom⟩ := hc
      · rw [(commitIndex_of_committer hs hcom).1, hx]
      · rw [← hlen]
        refine ((Step.of_cluster hs).peer s).commitIndex_end (hlen.trans hx.symm) ?_
        rw [ih hx hcom, hx]

/-- What a repetition writes is there already. -/
lemma settled_of_repeats (h : (cluster n C).Run tr st) {an : Answer n C}
    (hrep : repeats tr st an) :
    (st.rafts an.round.leader).settled an.round an.peer an.args an.reply := by
  obtain ⟨hlast, hcom⟩ := of_decide_eq_true hrep
  have hci := fun hp => commitIndex_of_committedSince h (hcom hp)
  rw [Option.any_eq_true] at hlast
  obtain ⟨b, hb, hsays⟩ := hlast
  have hw := written_of_run h hb
  cases b with
  | promoted length =>
      obtain ⟨hr, rfl, hlen⟩ := of_decide_eq_true hsays
      simp only [Raft.settled, hr, if_true, decide_eq_true_eq]
      exact ⟨by rw [hw.1, hlen], by rw [hw.2, hlen]; rfl, hci⟩
  | success length =>
      obtain ⟨hr, rfl⟩ := of_decide_eq_true hsays
      simp only [Raft.settled, hr, if_true, decide_eq_true_eq]
      exact ⟨hw.1, hw.2, hci⟩
  | refusal prevLogTerm termToIndex =>
      obtain ⟨hr, rfl, hmap⟩ := of_decide_eq_true hsays
      simp only [Raft.settled, hr, Bool.false_eq_true, if_false, decide_eq_true_eq]
      rw [← Raft.backUp_congr fun t h1 ht => hmap t (by omega)]
      exact hw

/-- A peer that has ever started a round of heartbeats has its tables. -/
lemma booked_of_run (h : (cluster n C).Run tr st) {r : ℕ} {rd : Round n C}
    (hrd : st.rounds[r]? = some rd) : (st.rafts rd.leader).Booked := by
  induction h generalizing r rd with
  | init => simp [cluster, Cluster.make] at hrd
  | step h hs ih =>
      have hstep := Step.of_cluster hs
      refine (hstep.book _).booked ?_
      cases hstep.round hrd with
      | old hold => exact ih hold
      | new ha hl => exact ⟨((booksOk_of_run h _).1 hl).next_length,
          ((booksOk_of_run h _).1 hl).match_length⟩
      | built ha hold => exact (ih hold :)
      | answered ha hold => exact (ih hold :)
      | returned ha hold => exact (ih hold :)

/-- The handler returns on a stale answer, and leaves the tables and `commitIndex` of every peer
alone if the answer says nothing new. -/
lemma stale_step (h : (cluster n C).Run tr st) {a : Action n C} (hst : stale st a) :
    ∃ st', (cluster n C).step st a = some st' ∧
      ((answer? st a).any (repeats tr st) → ∀ s,
        (st'.rafts s).commitIndex = (st.rafts s).commitIndex ∧
        (st'.rafts s).nextIndex = (st.rafts s).nextIndex ∧
        (st'.rafts s).matchIndex = (st.rafts s).matchIndex) := by
  rw [stale, Option.any_eq_true] at hst
  obtain ⟨an, hans, hst⟩ := hst
  have hle := (of_decide_eq_true hst).2
  obtain ⟨r, rfl, hrd, hc⟩ := answer?_eq_some_iff.mp hans
  obtain ⟨hn, hm⟩ := booked_of_run h hrd
  obtain ⟨⟨rf, rd'⟩, hrf, hiff⟩ := Raft.heartBeatReply_settled hc hn hm hle
    (Function.update an.round.calls an.peer (.returned an.args an.reply))
  refine ⟨(st.setRaft an.round.leader rf).setRound r rd', ?_, fun hrep s => ?_⟩
  · change st.heartBeatReply r an.peer = _
    simp [Cluster.heartBeatReply, hrd, hc, hrf]
  · rw [hans, Option.any_some] at hrep
    rw [Cluster.setRound_rafts, Cluster.setRaft_rafts]
    by_cases hs : s = an.round.leader
    · rw [hs, Function.update_self]
      exact hiff.mpr (settled_of_repeats h hrep)
    · rw [Function.update_of_ne hs]
      exact ⟨rfl, rfl, rfl⟩

/-- **Stale answers are ignored in the runs in which they only repeat what was booked last**: there
every stale answer that was handled has left `commitIndex`, `nextIndex` and `matchIndex` of every
peer unchanged. The handler returns on every stale answer. -/
theorem staleAnswer (h : (cluster n C).Run tr st) (hrep : staleRepeats tr) :
    (∀ q ∈ tr, stale q.1 q.2 → ∃ st', (cluster n C).step q.1 q.2 = some st' ∧ ∀ s,
      (st'.rafts s).commitIndex = (q.1.rafts s).commitIndex ∧
      (st'.rafts s).nextIndex = (q.1.rafts s).nextIndex ∧
      (st'.rafts s).matchIndex = (q.1.rafts s).matchIndex) ∧
    ∀ a, stale st a → ((cluster n C).step st a).isSome := by
  constructor
  · induction h with
    | init => exact fun q hq => absurd hq List.not_mem_nil
    | @step tr x y a h hs ih =>
        simp only [staleRepeats, Bool.decide_and, Bool.and_eq_true, decide_eq_true_eq] at hrep
        rintro q hq hst
        rcases List.mem_cons.mp hq with rfl | hq
        · obtain ⟨st', hst', hsame⟩ := stale_step h hst
          exact ⟨st', hst', hsame (hrep.1 hst)⟩
        · exact ih hrep.2 q hq hst
  · intro a hst
    obtain ⟨st', hst', -⟩ := stale_step h hst
    exact Option.isSome_of_eq_some hst'

/-- Peer 0 led term 1 and sent its entry twice to 1. The first success commits it. 0 has stepped
down into term 2 when the second one comes in, which makes the majority of its round and changes
nothing. -/
theorem staleAnswer_run : ∃ tr st, (cluster 3 ℕ).Run tr st ∧ ∃ q ∈ tr, stale q.1 q.2 = true ∧
    (q.1.rafts 0).getState = (2, false) ∧ (q.1.rafts 0).commitIndex = 1 ∧
    (∃ an ∈ answer? q.1 q.2, an.round.leader = 0 ∧ an.args.term = 1 ∧ an.round.commits an.peer) ∧
    ∃ st', (cluster 3 ℕ).step q.1 q.2 = some st' ∧ (st'.rafts 0).commitIndex = 1 ∧
      (st'.rafts 0).nextIndex = (q.1.rafts 0).nextIndex ∧
      (st'.rafts 0).matchIndex = (q.1.rafts 0).matchIndex := by
  obtain ⟨tr, st, h, hrep, q, hq, hst, hstate, hci, hans⟩ := (cluster 3 ℕ).exists_run_of_exec
    [.timer 0, .attemptEletion 0, .requestVote 0 1, .voteReply 0 1, .start 0 10, .heartBeat 0,
      .heartBeat 0, .heartBeatArgs 0 1, .heartBeatArgs 0 2, .heartBeatArgs 1 1, .appendEntries 0 1,
      .appendEntries 1 1, .heartBeatReply 0 1, .timer 2, .attemptEletion 2, .timer 2,
      .attemptEletion 2, .appendEntries 0 2, .heartBeatReply 0 2, .heartBeatReply 1 1]
    (fun tr _ => staleRepeats tr = true ∧ ∃ q ∈ tr.head?, stale q.1 q.2 = true ∧
      (q.1.rafts 0).getState = (2, false) ∧ (q.1.rafts 0).commitIndex = 1 ∧
      ∃ an ∈ answer? q.1 q.2, an.round.leader = 0 ∧ an.args.term = 1 ∧ an.round.commits an.peer)
    (by decide)
  have hmem : q ∈ tr := List.mem_of_mem_head? hq
  obtain ⟨st', hst', hsame⟩ := (staleAnswer h hrep).1 q hmem hst
  obtain ⟨hcommit, hnext, hmatch⟩ := hsame 0
  exact ⟨tr, st, h, q, hmem, hst, hstate, hci, hans, st', hst', hcommit.trans hci, hnext, hmatch⟩

/-- Peer 0 led term 1 and has stepped down into term 2 when the success of 1 comes in, an answer to
a request of term 1. It moves `nextIndex[1]` and `matchIndex[1]`, and with the count of the old
round it also moves the `commitIndex` of the follower. -/
theorem staleAnswer_fails : ∃ tr st, (cluster 3 ℕ).Run tr st ∧ (st.rafts 0).getState = (2, false) ∧
    (∃ rd ∈ st.rounds[0]?, rd.leader = 0 ∧ ∃ ar ∈ (rd.calls 1).answer?,
      ar.1.term = 1 ∧ ar.2.term ≤ (st.rafts 0).currentTerm) ∧
    (st.rafts 0).commitIndex = 0 ∧ (st.rafts 0).nextIndex = [1, 1, 1] ∧
    (st.rafts 0).matchIndex = [0, 0, 0] ∧
    ∃ st' ∈ st.step (.heartBeatReply 0 1), (st'.rafts 0).commitIndex = 1 ∧
      (st'.rafts 0).nextIndex = [1, 2, 1] ∧ (st'.rafts 0).matchIndex = [0, 1, 0] :=
  (cluster 3 ℕ).exists_run_of_exec
    [.timer 0, .attemptEletion 0, .requestVote 0 1, .voteReply 0 1, .start 0 10, .heartBeat 0,
      .heartBeatArgs 0 1, .heartBeatArgs 0 2, .appendEntries 0 1, .timer 2, .attemptEletion 2,
      .timer 2, .attemptEletion 2, .appendEntries 0 2, .heartBeatReply 0 2]
    (fun _ st => (st.rafts 0).getState = (2, false) ∧
      (∃ rd ∈ st.rounds[0]?, rd.leader = 0 ∧ ∃ ar ∈ (rd.calls 1).answer?,
        ar.1.term = 1 ∧ ar.2.term ≤ (st.rafts 0).currentTerm) ∧
      (st.rafts 0).commitIndex = 0 ∧ (st.rafts 0).nextIndex = [1, 1, 1] ∧
      (st.rafts 0).matchIndex = [0, 0, 0] ∧
      ∃ st' ∈ st.step (.heartBeatReply 0 1), (st'.rafts 0).commitIndex = 1 ∧
        (st'.rafts 0).nextIndex = [1, 2, 1] ∧ (st'.rafts 0).matchIndex = [0, 1, 0]) (by decide)

end Runs

end GoLabs.Consensus
