import GoLabs.Consensus.TermIndex
import GoLabs.Consensus.Windows
import GoLabs.Lib.Retry

/-!
# Repairing the log of a follower

A leader finds the place up to which a follower has its log by trying. A heartbeat offers what comes
after `nextIndex`, and a follower that does not have the entry before it rejects. The reply handler
then takes `nextIndex` back to the first index of the nearest smaller term (`backUp`), and not by
one as in the plain algorithm.

* `exchange` is one heartbeat to one follower and back, with no other step in between, and `retry`
  repeats it until the answer is a success. `exchangeByOne` is the same with the plain back-up.
* What a heartbeat does depends only on whether the two logs have the same term before `nextIndex`
  (`Agree`): `deliver_spec`. At the placeholder they always have. So repair ends with every handler
  that takes `nextIndex` back on a rejection (`BacksUp`).
* The handler of the source takes it below every entry of the term that did not fit, so each
  rejection uses up a term of the leader's log (`card_terms_backUp`); that bounds their number. This
  rests on a map that gives the first index of every term of the log and increases with the term
  (`BackUpTable`). It may have terms that the log does not have. No place is skipped that would be
  needed, since under log matching every agreement gives the follower the whole log
  (`log_eq_of_agree`).
* The map of a leader increases in every run, so `repair` asks only that it is right for the terms
  of the log. In the runs in which no two peers append entries of one term it is, and the exchanges
  are steps of the cluster: from every state of such a run, a leader can bring every follower that
  is not ahead of its term to its own log (`repair_reachable`).
-/

namespace GoLabs.Consensus

open GoLabs.Lib

variable {n : ℕ} {C : Type}

/-! ## One heartbeat and its answer -/

/-- What the sender of a round does with an answer. -/
abbrev ReplyHandler (n : ℕ) (C : Type) : Type :=
  Raft n C → Round n C → Fin n → AppendEntriesArgs n C → AppendEntriesReply →
    Option (Raft n C × Round n C)

/-- The first two steps: build the request, and handle it. -/
def deliver (me index : Fin n) (leader follower : Raft n C) :
    Option (AppendEntriesArgs n C × Raft n C × AppendEntriesReply) := do
  let args ← leader.heartBeatArgs me index
  let (follower, reply) ← follower.appendEntries args
  some (args, follower, reply)

/-- A round that has just been started. -/
def Round.fresh (s : Fin n) : Round n C := ⟨s, 1, false, Cluster.spawn s .spawned⟩

/-- A heartbeat of `me` to `index`, from the building of its arguments to the end of the reply
handler. The state is that of the sender and that of the peer; the result says whether the answer
was a success.
Source: `raft.go` `HeartBeat`, `AppendEntries` -/
def exchangeWith (handler : ReplyHandler n C) (me index : Fin n) (x : Raft n C × Raft n C) :
    Option ((Raft n C × Raft n C) × Bool) := do
  let (args, follower, reply) ← deliver me index x.1 x.2
  let (leader, _) ← handler x.1 (Round.fresh me) index args reply
  some ((leader, follower), reply.success)

/-- The heartbeat of the source. -/
def exchange (me index : Fin n) (x : Raft n C × Raft n C) : Option ((Raft n C × Raft n C) × Bool) :=
  exchangeWith Raft.heartBeatReply me index x

/-- The reply handler of the plain algorithm, for comparison: as that of the source, except that a
rejection does `rf.nextIndex[index]--`. -/
def Raft.replyByOne (rf : Raft n C) (round : Round n C) (index : Fin n)
    (args : AppendEntriesArgs n C) (reply : AppendEntriesReply) :
    Option (Raft n C × Round n C) :=
  if reply.success = false ∧ reply.term ≤ rf.currentTerm then do
    let next ← Slice.get? rf.nextIndex (index : ℕ)
    let nextIndex ← Slice.set? rf.nextIndex (index : ℕ) (next - 1)
    some ({ rf with nextIndex := nextIndex }, round)
  else rf.heartBeatReply round index args reply

/-- The heartbeat with the plain back-up. -/
def exchangeByOne (me index : Fin n) (x : Raft n C × Raft n C) :
    Option ((Raft n C × Raft n C) × Bool) :=
  exchangeWith Raft.replyByOne me index x

/-- The two logs have entries of the same term at the index. -/
def Agree (L F : List (LogEntry C)) (i : ℕ) : Prop :=
  ∃ e f, L[i]? = some e ∧ F[i]? = some f ∧ e.term = f.term

/-- Log matching for two logs: where they have the same term they are the same up to there. -/
def LogsMatch (L F : List (LogEntry C)) : Prop :=
  ∀ i e f, L[i]? = some e → F[i]? = some f → e.term = f.term → L.take (i + 1) = F.take (i + 1)

/-- `nextIndex[index]` of the sender. -/
def nextOf (index : Fin n) (x : Raft n C × Raft n C) : ℤ := (x.1.nextIndex[(index : ℕ)]?).getD 0

/-- What holds between the heartbeats: the leader has changed only its `nextIndex`, and that is in
range for the peer; the follower has changed only its term. -/
structure Repairing (leader follower : Raft n C) (index : Fin n) (x : Raft n C × Raft n C) :
    Prop where
  leader_eq : ∃ nextIndex, x.1 = { leader with nextIndex := nextIndex }
  follower_eq : ∃ T ≤ leader.currentTerm, x.2 = { follower with currentTerm := T }
  inRange : x.1.InRange index

section Exchange

variable {leader follower : Raft n C} {me index : Fin n} {x y : Raft n C × Raft n C}

/-- `PrevLogIndex` is one below `nextIndex`. -/
lemma Raft.heartBeatArgs_prevLogIndex {rf : Raft n C} {args : AppendEntriesArgs n C}
    (h : rf.heartBeatArgs me index = some args) :
    rf.nextIndex[(index : ℕ)]? = some (args.prevLogIndex + 1) := by
  simp only [Raft.heartBeatArgs, Option.bind_eq_bind, Option.bind_eq_some_iff] at h
  obtain ⟨next, hnext, prev, -, entries, -, h⟩ := h
  cases h
  simpa using (Slice.get?_eq_some_iff.mp hnext).2

/-- **What a heartbeat does**: where the logs agree before `nextIndex` the follower takes over the
rest of the leader's log, and otherwise it rejects and only takes over the term. -/
theorem deliver_spec (me : Fin n) (hs : follower.state = .follower)
    (hx : Repairing leader follower index x) :
    ∃ (i : ℕ) (prev : LogEntry C) (args : AppendEntriesArgs n C),
      x.1.nextIndex[(index : ℕ)]? = some ((i : ℤ) + 1) ∧ leader.log[i]? = some prev ∧
      args.prevLogTerm = prev.term ∧
      ((Agree leader.log follower.log i ∧ ∃ rf, rf.log =
          follower.log.take (i + 1) ++ leader.log.drop (i + 1) ∧
          deliver me index x.1 x.2 = some (args, rf, ⟨leader.currentTerm, true⟩)) ∨
        (¬ Agree leader.log follower.log i ∧ deliver me index x.1 x.2 =
          some (args, { follower with currentTerm := leader.currentTerm },
            ⟨leader.currentTerm, false⟩))) := by
  obtain ⟨⟨nextIndex, hl⟩, ⟨T, hT, hf⟩, hrange⟩ := hx
  have hsome : (x.1.heartBeatArgs me index).isSome := Raft.isSome_heartBeatArgs_iff.mpr hrange
  obtain ⟨args, hargs⟩ := Option.isSome_iff_exists.mp hsome
  obtain ⟨hterm, -, h0, ⟨prev, hprev, hpt⟩, -⟩ := Raft.heartBeatArgs_eq_some hargs
  have hnext := Raft.heartBeatArgs_prevLogIndex hargs
  have hi : ((args.prevLogIndex.toNat : ℕ) : ℤ) = args.prevLogIndex := Int.toNat_of_nonneg h0
  have hlog : x.1.log = leader.log := by rw [hl]
  have hcur : x.1.currentTerm = leader.currentTerm := by rw [hl]
  have hflog : x.2.log = follower.log := by rw [hf]
  have hfstate : x.2.state = .follower := by rw [hf]; exact hs
  have hfterm : x.2.currentTerm ≤ args.term := by
    rw [hterm, hcur, hf]
    exact hT
  rw [hlog] at hprev
  -- the follower takes the request exactly if the logs agree
  have hagree : x.2.accepts args ↔ Agree leader.log follower.log args.prevLogIndex.toNat := by
    rw [Raft.accepts_iff, hflog]
    constructor
    · rintro ⟨-, -, -, f, hf, hft⟩
      exact ⟨prev, f, hprev, hf, hpt.trans hft.symm⟩
    · rintro ⟨e, f, he, hf, heq⟩
      rw [hprev, Option.some.injEq] at he
      subst he
      exact ⟨hfstate, hfterm, h0, f, hf, heq.symm.trans hpt⟩
  refine ⟨args.prevLogIndex.toNat, prev, args, by rw [hi, hnext], hprev, hpt.symm, ?_⟩
  by_cases hacc : x.2.accepts args
  · refine Or.inl ⟨hagree.mp hacc, { x.2 with currentTerm := args.term }.accept args, ?_, ?_⟩
    · rw [accept_log_eq hargs, hflog, hlog]
    · simp [deliver, hargs, Raft.appendEntries_of_accepts hacc, hterm, hcur]
  · refine Or.inr ⟨fun h => hacc (hagree.mpr h), ?_⟩
    rw [deliver, hargs, Option.bind_eq_bind, Option.bind_some,
      Raft.appendEntries_of_not_accepts hfstate hfterm h0 hacc, hterm, hcur, hf]
    rfl

/-- The handler of a success never fails, and leaves the log alone.
Source: `raft.go` `HeartBeat` -/
lemma Raft.heartBeatReply_success {rf : Raft n C} (rd : Round n C) (args : AppendEntriesArgs n C)
    (T : ℕ) (hn : (index : ℕ) < rf.nextIndex.length) (hm : (index : ℕ) < rf.matchIndex.length) :
    ∃ rf' rd', rf.heartBeatReply rd index args ⟨T, true⟩ = some (rf', rd') ∧ rf'.log = rf.log := by
  obtain ⟨nextIndex, hnext, -⟩ := Slice.exists_set? hn (rf.log.length : ℤ)
  obtain ⟨matchIndex, hmatch, -⟩ := Slice.exists_set? hm ((rf.log.length : ℤ) - 1)
  simp only [Raft.heartBeatReply, hnext, hmatch, Bool.not_true, Bool.false_eq_true, if_false,
    Option.bind_eq_bind, Option.bind_some]
  split_ifs
  · exact ⟨_, _, rfl, rfl⟩
  · exact ⟨_, _, rfl, rfl⟩

end Exchange

/-! ## Repair with any back-up -/

/-- What repair needs of a reply handler: it does with a success what `HeartBeat` does, and it takes
`nextIndex` from a rejected entry back to some index, from 1 on and not beyond the entry, for which
the measure is smaller. -/
structure BacksUp (handler : ReplyHandler n C) (leader : Raft n C) (index : Fin n)
    (measure : ℕ → ℕ) : Prop where
  success : ∀ (rf : Raft n C) rd args reply, reply.success = true →
    handler rf rd index args reply = rf.heartBeatReply rd index args reply
  reject : ∀ (old : List ℤ) rd (args : AppendEntriesArgs n C) (i : ℕ) (prev : LogEntry C), 1 ≤ i →
    old[(index : ℕ)]? = some ((i : ℤ) + 1) → leader.log[i]? = some prev →
    args.prevLogTerm = prev.term →
    ∃ k : ℕ, 1 ≤ k ∧ k ≤ i ∧ measure k < measure (i + 1) ∧
      ∀ new, Slice.set? old (index : ℕ) (k : ℤ) = some new →
        handler { leader with nextIndex := old } rd index args ⟨leader.currentTerm, false⟩ =
          some ({ leader with nextIndex := new }, rd)

section AnyBackUp

variable {handler : ReplyHandler n C} {leader follower : Raft n C} {me index : Fin n}
  {measure : ℕ → ℕ} {x : Raft n C × Raft n C}

/-- An exchange that ends in a success leaves the leader's log alone. -/
lemma BacksUp.exchange_success (hb : BacksUp handler leader index measure)
    (hx : Repairing leader follower index x) (hm : (index : ℕ) < leader.matchIndex.length)
    {args : AppendEntriesArgs n C} {rf : Raft n C} {T : ℕ}
    (hdel : deliver me index x.1 x.2 = some (args, rf, ⟨T, true⟩)) :
    ∃ rf', exchangeWith handler me index x = some ((rf', rf), true) ∧ rf'.log = leader.log := by
  obtain ⟨⟨old, hl⟩, -, next, hnext, -⟩ := hx
  have hlen : (index : ℕ) < x.1.nextIndex.length := (List.getElem?_eq_some_iff.mp hnext).1
  have hmlen : (index : ℕ) < x.1.matchIndex.length := by
    rw [hl]
    exact hm
  obtain ⟨rf', rd', hreply, hlog⟩ :=
    Raft.heartBeatReply_success (Round.fresh me) args T hlen hmlen
  refine ⟨rf', ?_, ?_⟩
  · simp [exchangeWith, hdel, hb.success, hreply]
  · rw [hlog, hl]

/-- An exchange in which the entry at `i` is rejected goes on with a smaller `nextIndex`. -/
lemma BacksUp.exchange_reject (hb : BacksUp handler leader index measure)
    (hx : Repairing leader follower index x) {i : ℕ} {prev : LogEntry C}
    {args : AppendEntriesArgs n C} (hi : 1 ≤ i)
    (hnext : x.1.nextIndex[(index : ℕ)]? = some ((i : ℤ) + 1)) (hprev : leader.log[i]? = some prev)
    (hpt : args.prevLogTerm = prev.term)
    (hdel : deliver me index x.1 x.2 = some (args, { follower with
      currentTerm := leader.currentTerm }, ⟨leader.currentTerm, false⟩)) :
    ∃ y, exchangeWith handler me index x = some (y, false) ∧
      Repairing leader follower index y ∧
      measure (nextOf index y).toNat < measure (nextOf index x).toNat ∧
      nextOf index y < nextOf index x := by
  obtain ⟨⟨old, hl⟩, -, -⟩ := hx
  have hlt := (List.getElem?_eq_some_iff.mp hprev).1
  have hold : nextOf index x = (i : ℤ) + 1 := by rw [nextOf, hnext, Option.getD_some]
  rw [hl] at hnext
  obtain ⟨k, hk1, hki, hmeas, hhandler⟩ :=
    hb.reject old (Round.fresh me) args i prev hi hnext hprev hpt
  obtain ⟨new, hset, -⟩ := Slice.exists_set? (List.getElem?_eq_some_iff.mp hnext).1 (k : ℤ)
  have hget : new[(index : ℕ)]? = some (k : ℤ) := by
    rw [Slice.getElem?_of_set? hset, if_pos rfl]
  refine ⟨({ leader with nextIndex := new }, { follower with currentTerm := leader.currentTerm }),
    ?_, ⟨⟨new, rfl⟩, ⟨leader.currentTerm, le_refl _, rfl⟩, (k : ℤ), hget, ?_, ?_⟩, ?_, ?_⟩
  · rw [exchangeWith, hdel, Option.bind_eq_bind, Option.bind_some]
    dsimp only
    rw [hl, hhandler new hset]
    rfl
  · omega
  · dsimp only
    omega
  · rw [hold, nextOf, hget, Option.getD_some, Int.toNat_natCast]
    exact hmeas
  · rw [hold, nextOf, hget, Option.getD_some]
    omega

/-- **One exchange**: a success gives the follower the leader's log from an agreement on, and a
rejection goes on with a smaller `nextIndex`. -/
theorem BacksUp.exchange (hb : BacksUp handler leader index measure) (me : Fin n)
    (hs : follower.state = .follower) (h0 : Agree leader.log follower.log 0)
    (hm : (index : ℕ) < leader.matchIndex.length) (hx : Repairing leader follower index x) :
    ∃ y ok, exchangeWith handler me index x = some (y, ok) ∧
      (ok = true → y.1.log = leader.log ∧ ∃ i, Agree leader.log follower.log i ∧
        y.2.log = follower.log.take (i + 1) ++ leader.log.drop (i + 1)) ∧
      (ok = false → Repairing leader follower index y ∧
        measure (nextOf index y).toNat < measure (nextOf index x).toNat ∧
        nextOf index y < nextOf index x) := by
  obtain ⟨i, prev, args, hnext, hprev, hpt, hcases⟩ := deliver_spec me hs hx
  rcases hcases with ⟨hagree, rf, hlog, hdel⟩ | ⟨hno, hdel⟩
  · obtain ⟨rf', hex, hlog'⟩ := hb.exchange_success hx hm hdel
    exact ⟨(rf', rf), true, hex, fun _ => ⟨hlog', i, hagree, hlog⟩, fun h => by cases h⟩
  · -- the placeholders agree, so what is rejected is an entry behind them
    have hi : 1 ≤ i := by
      by_contra hlt
      obtain rfl : i = 0 := by omega
      exact hno h0
    obtain ⟨y, hex, hy⟩ := hb.exchange_reject hx hi hnext hprev hpt hdel
    exact ⟨y, false, hex, fun h => (by cases h), fun _ => hy⟩

/-- **Repair ends**, with any such handler: after no more rejections than the measure of the first
`nextIndex`, which go down along the way and stay from 1 on. -/
theorem BacksUp.exists_retry (hb : BacksUp handler leader index measure) (me : Fin n)
    (hs : follower.state = .follower) (h0 : Agree leader.log follower.log 0)
    (hm : (index : ℕ) < leader.matchIndex.length) (hx : Repairing leader follower index x)
    {fuel : ℕ} (hfuel : measure (nextOf index x).toNat < fuel) :
    ∃ rejected last final, retry (exchangeWith handler me index) fuel x =
        some (rejected, last, final) ∧
      rejected.length ≤ measure (nextOf index x).toNat ∧
      ((rejected ++ [last]).map (nextOf index)).Pairwise (· > ·) ∧
      (∀ z ∈ rejected ++ [last], Repairing leader follower index z) ∧
      final.1.log = leader.log ∧ ∃ i, Agree leader.log follower.log i ∧
        final.2.log = follower.log.take (i + 1) ++ leader.log.drop (i + 1) := by
  have hstep : ∀ z, Repairing leader follower index z →
      ∃ y ok, exchangeWith handler me index z = some (y, ok) ∧
        (ok = false → Repairing leader follower index y ∧
          measure (nextOf index y).toNat < measure (nextOf index z).toNat ∧
          nextOf index y < nextOf index z) := by
    intro z hz
    obtain ⟨y, ok, heq, -, hrej⟩ := hb.exchange me hs h0 hm hz
    exact ⟨y, ok, heq, hrej⟩
  obtain ⟨rejected, last, final, hretry, hlen, hall, hdown⟩ := Lib.exists_retry hstep hx hfuel
  obtain ⟨y, ok, heq, hsucc, -⟩ := hb.exchange me hs h0 hm (hall last (by simp)).1
  rw [attempt_of_retry hretry] at heq
  cases heq
  exact ⟨rejected, last, final, hretry, hlen, hdown, fun z hz => (hall z hz).1, hsucc rfl⟩

end AnyBackUp

/-- Under log matching every agreement gives the follower the whole log of the leader. -/
lemma log_eq_of_agree {L F : List (LogEntry C)} (hmatch : LogsMatch L F) {i : ℕ}
    (h : Agree L F i) : F.take (i + 1) ++ L.drop (i + 1) = L := by
  obtain ⟨e, f, he, hf, heq⟩ := h
  exact take_append_drop_of_take_eq (hmatch i e f he hf heq).symm

/-! ## What a rejection uses up -/

/-- The terms of the entries of the log before index `k`, without the placeholder. -/
def terms (L : List (LogEntry C)) (k : ℕ) : Finset ℕ := ((L.take k).tail.map LogEntry.term).toFinset

/-- A term before index `k` is that of an entry there. -/
lemma mem_terms {L : List (LogEntry C)} {k t : ℕ} :
    t ∈ terms L k ↔ ∃ i e, 1 ≤ i ∧ i < k ∧ L[i]? = some e ∧ e.term = t := by
  rw [terms, List.mem_toFinset, List.mem_map]
  constructor
  · rintro ⟨e, he, rfl⟩
    obtain ⟨i, hi⟩ := List.mem_iff_getElem?.mp he
    rw [List.getElem?_tail, List.getElem?_take] at hi
    split_ifs at hi with hlt
    exact ⟨i + 1, e, by omega, hlt, hi, rfl⟩
  · rintro ⟨i, e, hi, hlt, he, rfl⟩
    refine ⟨e, List.mem_iff_getElem?.mpr ⟨i - 1, ?_⟩, rfl⟩
    rw [List.getElem?_tail, Nat.sub_add_cancel hi, List.getElem?_take_of_lt hlt, he]

/-- More entries have more terms. -/
lemma terms_mono {L : List (LogEntry C)} {k m : ℕ} (h : k ≤ m) : terms L k ⊆ terms L m := by
  intro t ht
  obtain ⟨i, e, hi, hik, he⟩ := mem_terms.mp ht
  exact mem_terms.mpr ⟨i, e, hi, by omega, he⟩

/-- Index 0 has an entry of term 0. -/
def Placeholder (L : List (LogEntry C)) : Prop := ∃ e, L[0]? = some e ∧ e.term = 0

/-- What backing up needs of the map: it gives the first index of every term from 1 on that the log
has, and among the terms that it has a greater one has a greater index. -/
structure BackUpTable (termToIndex : ℕ → ℤ) (L : List (LogEntry C)) : Prop where
  first : ∀ t, 1 ≤ t → ∀ i, IsLeast (positions LogEntry.term L t) i → termToIndex t = i
  nonneg : ∀ t, 0 ≤ termToIndex t
  increasing : ∀ t u, t < u → termToIndex u ≠ 0 → termToIndex t < termToIndex u

/-- Backing up ends at what the map has for a term that is not greater, or at index 1. -/
lemma Raft.backUp_cases (termToIndex : ℕ → ℤ) (t : ℕ) : Raft.backUp termToIndex t = 1 ∨
    ∃ u, 1 ≤ u ∧ u ≤ t ∧ termToIndex u ≠ 0 ∧ Raft.backUp termToIndex t = termToIndex u := by
  induction t with
  | zero => exact Or.inl rfl
  | succ t ih =>
      unfold Raft.backUp
      split_ifs with hne
      · exact Or.inr ⟨t + 1, by omega, le_refl _, hne, rfl⟩
      · rcases ih with hone | ⟨u, h1, hu, hback⟩
        · exact Or.inl hone
        · exact Or.inr ⟨u, h1, by omega, hback⟩

/-- **A rejection takes `nextIndex` back**, and below every entry of the term that did not fit. -/
lemma card_terms_backUp {termToIndex : ℕ → ℤ} {L : List (LogEntry C)}
    (h : BackUpTable termToIndex L) (hhead : Placeholder L) {i : ℕ} {prev : LogEntry C}
    (hi : 1 ≤ i) (hprev : L[i]? = some prev) :
    ∃ k : ℕ, Raft.backUp termToIndex (prev.term - 1) = k ∧ 1 ≤ k ∧ k ≤ i ∧
      (terms L k).card < (terms L (i + 1)).card := by
  -- no entry from index 1 to before `k` has the term, while that at `i` has it
  have hcard : ∀ k : ℕ, k ≤ i →
      (∀ j e, 1 ≤ j → j < k → L[j]? = some e → e.term ≠ prev.term) →
      (terms L k).card < (terms L (i + 1)).card := by
    intro k hk hnone
    refine Finset.card_lt_card ((Finset.ssubset_iff_of_subset (terms_mono (by omega))).mpr
      ⟨prev.term, mem_terms.mpr ⟨i, prev, hi, by omega, hprev, rfl⟩, fun hmem => ?_⟩)
    obtain ⟨j, e, hj, hjk, he, heT⟩ := mem_terms.mp hmem
    exact hnone j e hj hjk he heT
  rcases Raft.backUp_cases termToIndex (prev.term - 1) with hone | ⟨u, h1, hu, hne, hback⟩
  · refine ⟨1, hone, le_refl 1, hi, hcard 1 hi fun j e hj hj1 => ?_⟩
    omega
  · -- what the map has for a smaller term comes before the first entry of this one
    obtain ⟨j, hj⟩ : ∃ j, IsLeast (positions LogEntry.term L prev.term) j :=
      exists_isLeast_positions ⟨i, prev, hprev, rfl⟩
    have hji : j ≤ i := hj.2 ⟨prev, hprev, rfl⟩
    have hfirst := h.first prev.term (by omega) j hj
    have hj0 : j ≠ 0 := by
      rintro rfl
      obtain ⟨e, he, heT⟩ := hj.1
      obtain ⟨e', he', heT'⟩ := hhead
      rw [Option.some.inj (he.symm.trans he')] at heT
      omega
    have hlt := h.increasing u prev.term (by omega) (by omega)
    have hnn := h.nonneg u
    refine ⟨(termToIndex u).toNat, by omega, by omega, by omega,
      hcard _ (by omega) fun k e _ hk he heT => ?_⟩
    have := hj.2 ⟨e, he, heT⟩
    omega

/-! ## The two handlers -/

section Repair

variable {leader follower : Raft n C} {index : Fin n} {fuel : ℕ}

/-- The handler of the source uses up a term with every rejection.
Source: `raft.go` `HeartBeat` -/
lemma backsUp_heartBeatReply (htable : BackUpTable leader.termToIndex leader.log)
    (hhead : Placeholder leader.log) :
    BacksUp Raft.heartBeatReply leader index fun k => (terms leader.log k).card where
  success := fun _ _ _ _ _ => rfl
  reject := by
    intro old rd args i prev hi _ hprev hpt
    obtain ⟨k, hback, hk1, hki, hcard⟩ := card_terms_backUp htable hhead hi hprev
    refine ⟨k, hk1, hki, hcard, fun new hset => ?_⟩
    simp [Raft.heartBeatReply, hpt, hback, hset]

/-- The plain handler uses up an index. -/
lemma backsUp_replyByOne : BacksUp Raft.replyByOne leader index id where
  success := by
    intro rf rd args reply hr
    simp [Raft.replyByOne, hr]
  reject := by
    intro old rd args i prev hi hnext _ _
    refine ⟨i, hi, le_refl i, Nat.lt_succ_self i, fun new hset => ?_⟩
    have hget : Slice.get? old (index : ℕ) = some ((i : ℤ) + 1) :=
      Slice.get?_eq_some_iff.mpr ⟨by omega, by simpa using hnext⟩
    simp [Raft.replyByOne, hget, hset]

/-- A leader and a follower between which repair can begin. -/
structure Repairable (leader follower : Raft n C) (index : Fin n) : Prop where
  head : Placeholder leader.log
  table : BackUpTable leader.termToIndex leader.log
  inRange : leader.InRange index
  matchIndex : (index : ℕ) < leader.matchIndex.length
  role : follower.state = .follower
  follower_head : Placeholder follower.log
  term_le : follower.currentTerm ≤ leader.currentTerm

namespace Repairable

/-- The two peers before the first heartbeat. -/
lemma repairing (h : Repairable leader follower index) :
    Repairing leader follower index (leader, follower) :=
  ⟨⟨leader.nextIndex, rfl⟩, ⟨follower.currentTerm, h.term_le, rfl⟩, h.inRange⟩

/-- The two logs have the placeholder in common. -/
lemma agree (h : Repairable leader follower index) : Agree leader.log follower.log 0 := by
  obtain ⟨e, he, heT⟩ := h.head
  obtain ⟨f, hf, hfT⟩ := h.follower_head
  exact ⟨e, f, he, hf, heT.trans hfT.symm⟩

/-- `nextIndex` is not behind the end of the log. -/
lemma nextOf_le (h : Repairable leader follower index) :
    (nextOf index (leader, follower)).toNat ≤ leader.log.length := by
  obtain ⟨next, hnext, -, hle⟩ := h.inRange
  rw [nextOf, hnext, Option.getD_some]
  omega

/-- **Repair with the source's handler.** -/
theorem exists_retry (h : Repairable leader follower index) (me : Fin n)
    (hfuel : leader.log.length < fuel) :
    ∃ rejected last final, retry (exchange me index) fuel (leader, follower) =
        some (rejected, last, final) ∧
      rejected.length ≤ (terms leader.log leader.log.length).card ∧
      ((rejected ++ [last]).map (nextOf index)).Pairwise (· > ·) ∧
      (∀ z ∈ rejected ++ [last], Repairing leader follower index z) ∧
      final.1.log = leader.log ∧
      (LogsMatch leader.log follower.log → final.2.log = leader.log) := by
  have hcard := Finset.card_le_card (terms_mono h.nextOf_le : _ ⊆ terms leader.log _)
  have hbound : (terms leader.log leader.log.length).card ≤ leader.log.length := by
    refine (List.toFinset_card_le _).trans ?_
    simp
  obtain ⟨rejected, last, final, hretry, hlen, hdown, hall, hlog, i, hagree, hfinal⟩ :=
    (backsUp_heartBeatReply h.table h.head).exists_retry me h.role h.agree h.matchIndex
      h.repairing (by omega : _ < fuel)
  refine ⟨rejected, last, final, hretry, hlen.trans hcard, hdown, hall, hlog, fun hmatch => ?_⟩
  rw [hfinal, log_eq_of_agree hmatch hagree]

/-- **Repair with the plain handler.** -/
theorem exists_retryByOne (h : Repairable leader follower index) (me : Fin n)
    (hfuel : leader.log.length < fuel) (hmatch : LogsMatch leader.log follower.log) :
    ∃ rejected last final, retry (exchangeByOne me index) fuel (leader, follower) =
        some (rejected, last, final) ∧ final.2.log = leader.log := by
  have hle := h.nextOf_le
  obtain ⟨rejected, last, final, hretry, -, -, -, -, i, hagree, hfinal⟩ :=
    backsUp_replyByOne.exists_retry me h.role h.agree h.matchIndex h.repairing
      (by dsimp only [id]; omega : _ < fuel)
  exact ⟨rejected, last, final, hretry, by rw [hfinal, log_eq_of_agree hmatch hagree]⟩

end Repairable

/-- The map of every peer of a run that is right for the terms of its log can be backed up with. -/
lemma backUpTable_of_run [Inhabited C] {tr : Trace n C} {st : Cluster n C}
    (h : (cluster n C).Run tr st) {s : Fin n}
    (hfirst : ∀ t, 1 ≤ t → ∀ i, IsLeast (positions LogEntry.term (st.rafts s).log t) i →
      (st.rafts s).termToIndex t = i) :
    BackUpTable (st.rafts s).termToIndex (st.rafts s).log :=
  ⟨hfirst, fun t => (termToIndex_of_run h (Visited.now _ _) s t).1,
    (inOrder_of_run h (Visited.now _ _) s).increasing⟩

/-- In a run in which no two peers append entries of one term, a leader can repair the log of every
follower that is not ahead of its term. -/
lemma repairable_of_run [Inhabited C] {tr : Trace n C} {st : Cluster n C}
    (h : (cluster n C).Run tr st) (hu : OneAppenderPerTerm tr) {s p : Fin n}
    (hl : (st.rafts s).state = .leader) (hf : (st.rafts p).state = .follower)
    (hT : (st.rafts p).currentTerm ≤ (st.rafts s).currentTerm) :
    Repairable (st.rafts s) (st.rafts p) p ∧ LogsMatch (st.rafts s).log (st.rafts p).log := by
  have hL := logShape_of_run h (Visited.now _ _) s
  have hF := logShape_of_run h (Visited.now _ _) p
  have hbooks := (booksOk_of_run h s).1 hl
  have hm : (p : ℕ) < (st.rafts s).matchIndex.length := by
    rw [hbooks.match_length]
    exact p.isLt
  have htable := backUpTable_of_run h (termIndex_of_run h hu (Visited.now _ _) s).first
  refine ⟨⟨⟨_, hL.head, rfl⟩, htable, hbooks.inRange p, hm, hf, ⟨_, hF.head, rfl⟩, hT⟩,
    fun i e f he hf heq => ?_⟩
  exact Sourced.matching h hu (sourced_of_run h hu (Visited.now _ _) s)
    (sourced_of_run h hu (Visited.now _ _) p) he hf heq

/-- The terms from 1 on that occur in a log. -/
def distinctTerms (L : List (LogEntry C)) : Finset ℕ :=
  (L.map LogEntry.term).toFinset.filter (1 ≤ ·)

/-- In a run every term behind the placeholder is one of these. -/
lemma terms_subset_distinctTerms [Inhabited C] {tr : Trace n C} {st : Cluster n C}
    (h : (cluster n C).Run tr st) (s : Fin n) (k : ℕ) :
    terms (st.rafts s).log k ⊆ distinctTerms (st.rafts s).log := by
  intro t ht
  obtain ⟨i, e, hi, -, he, rfl⟩ := mem_terms.mp ht
  rw [distinctTerms, Finset.mem_filter, List.mem_toFinset]
  exact ⟨List.mem_map_of_mem (List.mem_of_getElem? he), entry_term_pos h (Visited.now _ _) hi he⟩

/-- The peer with another `nextIndex[index]`. -/
def Raft.withNext (rf : Raft n C) (index : Fin n) (next : ℤ) : Raft n C :=
  { rf with nextIndex := rf.nextIndex.set index next }

/-- A leader of a run, with any `nextIndex` in range, and a follower that is not ahead of its
term. -/
lemma repairable_withNext [Inhabited C] {tr : Trace n C} {st : Cluster n C}
    (h : (cluster n C).Run tr st) {s : Fin n} (hl : (st.rafts s).state = .leader)
    (hfirst : ∀ t, 1 ≤ t → ∀ i, IsLeast (positions LogEntry.term (st.rafts s).log t) i →
      (st.rafts s).termToIndex t = i)
    {next : ℤ} (hpos : 1 ≤ next) (hle : next ≤ ((st.rafts s).log.length : ℤ))
    (hrole : follower.state = .follower) (hhead : Placeholder follower.log)
    (hT : follower.currentTerm ≤ (st.rafts s).currentTerm) :
    Repairable ((st.rafts s).withNext index next) follower index := by
  have hL := logShape_of_run h (Visited.now _ _) s
  have hbooks := (booksOk_of_run h s).1 hl
  have hn : (index : ℕ) < (st.rafts s).nextIndex.length := by
    rw [hbooks.next_length]
    exact index.isLt
  have hm : (index : ℕ) < (st.rafts s).matchIndex.length := by
    rw [hbooks.match_length]
    exact index.isLt
  exact ⟨⟨_, hL.head, rfl⟩, backUpTable_of_run h hfirst,
    ⟨next, List.getElem?_set_self hn, hpos, hle⟩, hm, hrole, hhead, hT⟩

/-- **Accelerated repair ends and gives what step-by-step repair gives**, for every leader of a run
whose map gives the first index of each term from 1 on in its log, every `nextIndex` in range and
every follower that is not ahead of the leader's term. Heartbeats to it, with nothing in between,
end in a success. There are at most as many rejections as there are terms from 1 on in the leader's
log; each makes `nextIndex` smaller, and it stays from 1 on. Under log matching the follower ends
with the leader's log, as it does when `nextIndex` goes back by one each time. -/
theorem repair [Inhabited C] {tr : Trace n C} {st : Cluster n C} (h : (cluster n C).Run tr st)
    {s : Fin n} (hl : (st.rafts s).state = .leader)
    (hfirst : ∀ t, 1 ≤ t → ∀ i : ℕ,
      IsLeast {i : ℕ | ∃ e, (st.rafts s).log[i]? = some e ∧ e.term = t} i →
        (st.rafts s).termToIndex t = i)
    {next : ℤ} (hpos : 1 ≤ next) (hle : next ≤ ((st.rafts s).log.length : ℤ))
    (hrole : follower.state = .follower) (hhead : Placeholder follower.log)
    (hT : follower.currentTerm ≤ (st.rafts s).currentTerm)
    (hfuel : (st.rafts s).log.length < fuel) :
    ∃ rejected last final,
      retry (exchange s index) fuel ((st.rafts s).withNext index next, follower) =
        some (rejected, last, final) ∧
      rejected.length ≤ (distinctTerms (st.rafts s).log).card ∧
      ((rejected ++ [last]).map (nextOf index)).Pairwise (· > ·) ∧
      (∀ z ∈ rejected ++ [last], 1 ≤ nextOf index z) ∧
      (LogsMatch (st.rafts s).log follower.log → final.2.log = (st.rafts s).log ∧
        ∃ rejected' last' final',
          retry (exchangeByOne s index) fuel ((st.rafts s).withNext index next, follower) =
            some (rejected', last', final') ∧ final'.2.log = final.2.log) := by
  have hrep : Repairable ((st.rafts s).withNext index next) follower index :=
    repairable_withNext h hl hfirst hpos hle hrole hhead hT
  obtain ⟨rejected, last, final, hretry, hlen, hdown, hall, -, hfinal⟩ := hrep.exists_retry s hfuel
  refine ⟨rejected, last, final, hretry,
    hlen.trans (Finset.card_le_card (terms_subset_distinctTerms h s _)), hdown, ?_, ?_⟩
  · intro z hz
    obtain ⟨next, hnext, hpos, -⟩ := (hall z hz).inRange
    rwa [nextOf, hnext, Option.getD_some]
  · intro hmatch
    obtain ⟨rejected', last', final', hretry', hfinal'⟩ := hrep.exists_retryByOne s hfuel hmatch
    exact ⟨hfinal hmatch, rejected', last', final', hretry', hfinal'.trans (hfinal hmatch).symm⟩

/-- 2 leads term 3 with an entry that 1 has appended in term 2 and one of its own, and 0 still has
an entry of term 1. -/
theorem repair_run : ∃ tr st, (cluster 3 ℕ).Run tr st ∧
    (st.rafts 2).log = [⟨0, 0⟩, ⟨2, 20⟩, ⟨3, 30⟩] ∧ (st.rafts 0).log = [⟨0, 0⟩, ⟨1, 10⟩] ∧
    ∃ rejected last final,
      retry (exchange 2 0) 4 ((st.rafts 2).withNext 0 3, st.rafts 0) =
        some (rejected, last, final) ∧
      rejected.length ≤ 2 ∧ final.2.log = [⟨0, 0⟩, ⟨2, 20⟩, ⟨3, 30⟩] := by
  obtain ⟨tr, st, h, hu, hl, hf, hT, hlog, hlog'⟩ := (cluster 3 ℕ).exists_run_of_exec
    [.timer 0, .attemptEletion 0, .requestVote 0 1, .voteReply 0 1, .start 0 10, .timer 1,
      .attemptEletion 1, .requestVote 1 2, .voteReply 1 2, .start 1 20, .heartBeat 1,
      .heartBeatArgs 0 2, .appendEntries 0 2, .heartBeatArgs 0 0, .appendEntries 0 0, .timer 2,
      .attemptEletion 2, .requestVote 2 0, .voteReply 2 0, .start 2 30]
    (fun tr st => OneAppenderPerTerm tr ∧ (st.rafts 2).state = .leader ∧
      (st.rafts 0).state = .follower ∧ (st.rafts 0).currentTerm ≤ (st.rafts 2).currentTerm ∧
      (st.rafts 2).log = [⟨0, 0⟩, ⟨2, 20⟩, ⟨3, 30⟩] ∧ (st.rafts 0).log = [⟨0, 0⟩, ⟨1, 10⟩])
    (by decide)
  obtain ⟨hstart, hmatch⟩ := repairable_of_run h hu hl hf hT
  obtain ⟨rejected, last, final, hretry, hlen, -, -, hfinal⟩ :=
    repair h hl (termIndex_of_run h hu (Visited.now _ _) 2).first (by decide : (1 : ℤ) ≤ 3)
      (by rw [hlog]; decide) hf hstart.follower_head hT (by rw [hlog]; decide : _ < 4)
  refine ⟨tr, st, h, hlog, hlog', rejected, last, final, hretry, ?_, ?_⟩
  · rw [hlog] at hlen
    exact hlen.trans (by decide)
  · rw [(hfinal hmatch).1, hlog]

end Repair

/-! ## Repair as steps of the cluster -/

section Runs

variable {tr : Trace n C} {st : Cluster n C} {s p : Fin n}

/-- A round's calls have no part in what its sender does with an answer. -/
lemma Raft.heartBeatReply_calls {rf rf' : Raft n C} {rd rd' : Round n C}
    {args : AppendEntriesArgs n C} {reply : AppendEntriesReply}
    (h : rf.heartBeatReply rd p args reply = some (rf', rd'))
    (calls : Fin n → Rpc (AppendEntriesArgs n C) AppendEntriesReply) :
    ∃ rd'', rf.heartBeatReply { rd with calls := calls } p args reply = some (rf', rd'') := by
  unfold Raft.heartBeatReply at h ⊢
  split_ifs at h ⊢
  · cases h
    exact ⟨_, rfl⟩
  · obtain ⟨nextIndex, hset, heq⟩ := Option.map_eq_some_iff.mp h
    cases heq
    exact ⟨_, by rw [hset]; rfl⟩
  · simp only [Option.bind_eq_bind, Option.bind_eq_some_iff] at h ⊢
    obtain ⟨nextIndex, hnext, matchIndex, hmatch, h⟩ := h
    split_ifs at h with hdone
    · cases h
      exact ⟨_, nextIndex, hnext, matchIndex, hmatch, if_pos hdone⟩
    · cases h
      exact ⟨_, nextIndex, hnext, matchIndex, hmatch, if_neg hdone⟩

/-- The cluster with one more round, in which only the call to `p` has got anywhere. -/
def Cluster.withRound (st : Cluster n C) (s p : Fin n)
    (call : Rpc (AppendEntriesArgs n C) AppendEntriesReply) : Cluster n C :=
  { st with rounds := st.rounds ++
      [⟨s, 1, false, Function.update (Cluster.spawn s .spawned) p call⟩] }

/-- The three critical sections of an exchange. -/
lemma exchange_parts {x y : Raft n C × Raft n C} {ok : Bool} (h : exchange s p x = some (y, ok)) :
    ∃ args reply rd, x.1.heartBeatArgs s p = some args ∧
      x.2.appendEntries args = some (y.2, reply) ∧
      x.1.heartBeatReply (Round.fresh s) p args reply = some (y.1, rd) := by
  simp only [exchange, exchangeWith, deliver, Option.bind_eq_bind, Option.bind_eq_some_iff] at h
  obtain ⟨out, ⟨args, hargs, ⟨follower, reply⟩, happ, hout⟩, ⟨leader, rd⟩, hreply, hy⟩ := h
  cases hout
  cases hy
  exact ⟨args, reply, rd, hargs, happ, hreply⟩

variable [Inhabited C]

/-- **An exchange is a piece of a run**: a round is spawned, and its goroutine for the peer runs
from its start to its end. -/
lemma exchange_reaches (hl : (st.rafts s).state = .leader) (hp : p ≠ s)
    {y : Raft n C × Raft n C} {ok : Bool}
    (h : exchange s p (st.rafts s, st.rafts p) = some (y, ok)) :
    ∃ st', Relation.ReflTransGen (cluster n C).Next st st' ∧ (st'.rafts s, st'.rafts p) = y := by
  obtain ⟨args, reply, rd, hargs, happ, hreply⟩ := exchange_parts h
  obtain ⟨rd', hreply'⟩ := Raft.heartBeatReply_calls hreply
    (Function.update (Cluster.spawn s .spawned) p (.returned args reply))
  have h1 : (cluster n C).Next st (st.withRound s p .spawned) := by
    refine ⟨.heartBeat s, ?_⟩
    have hspawn : Function.update (Cluster.spawn s .spawned) p .spawned =
        (Cluster.spawn s .spawned : Fin n → Rpc (AppendEntriesArgs n C) AppendEntriesReply) := by
      simp [Cluster.spawn, hp]
    simp [cluster, Cluster.step, Cluster.heartBeat, hl, Cluster.withRound, hspawn]
  have h2 : (cluster n C).Next (st.withRound s p .spawned)
      (st.withRound s p (.requested args)) := by
    refine ⟨.heartBeatArgs st.rounds.length p, ?_⟩
    simp [cluster, Cluster.step, Cluster.heartBeatArgs, Cluster.withRound, hargs, Cluster.setRound]
  have h3 : (cluster n C).Next (st.withRound s p (.requested args))
      ((st.setRaft p y.2).withRound s p (.replied args reply)) := by
    refine ⟨.appendEntries st.rounds.length p, ?_⟩
    simp [cluster, Cluster.step, Cluster.appendEntries, Cluster.withRound, happ, Cluster.setRound,
      Cluster.setRaft]
  have h4 : (cluster n C).Next ((st.setRaft p y.2).withRound s p (.replied args reply))
      { (st.setRaft p y.2).setRaft s y.1 with rounds := st.rounds ++ [rd'] } := by
    refine ⟨.heartBeatReply st.rounds.length p, ?_⟩
    simp only [Round.fresh] at hreply'
    simp [cluster, Cluster.step, Cluster.heartBeatReply, Cluster.withRound, Cluster.setRound,
      Cluster.setRaft, hp.symm, hreply']
  refine ⟨_, (((Relation.ReflTransGen.single h1).tail h2).tail h3).tail h4, ?_⟩
  simp [hp]

/-- **Every follower can be brought to the leader's log**, from every state of every run in which no
two peers append entries of one term, by steps of that leader and that follower alone. -/
theorem repair_reachable (h : (cluster n C).Run tr st) (hu : OneAppenderPerTerm tr)
    (hl : (st.rafts s).state = .leader) (hf : (st.rafts p).state = .follower)
    (hT : (st.rafts p).currentTerm ≤ (st.rafts s).currentTerm) :
    ∃ st', Relation.ReflTransGen (cluster n C).Next st st' ∧
      (st'.rafts s).log = (st.rafts s).log ∧ (st'.rafts p).log = (st.rafts s).log := by
  have hp : p ≠ s := by
    rintro rfl
    rw [hl] at hf
    cases hf
  obtain ⟨hstart, hmatch⟩ := repairable_of_run h hu hl hf hT
  obtain ⟨rejected, last, final, hretry, -, -, hall, hlog, hfinal⟩ :=
    hstart.exists_retry s (Nat.lt_succ_self _)
  have hstep : ∀ {z w : Raft n C × Raft n C} {ok : Bool} {u : Cluster n C},
      z.1.state = .leader → exchange s p z = some (w, ok) → (u.rafts s, u.rafts p) = z →
      ∃ v, Relation.ReflTransGen (cluster n C).Next u v ∧ (v.rafts s, v.rafts p) = w := by
    rintro z w ok u hz hex rfl
    exact exchange_reaches hz hp hex
  have hleads : ∀ z ∈ rejected ++ [last], z.1.state = .leader := by
    intro z hz
    obtain ⟨nextIndex, heq⟩ := (hall z hz).leader_eq
    rw [heq]
    exact hl
  obtain ⟨st', hreach, rfl⟩ := exists_path_of_retry hstep rfl hretry hleads
  exact ⟨st', hreach, hlog, hfinal hmatch⟩

end Runs

end GoLabs.Consensus
