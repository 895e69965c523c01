import GoLabs.Consensus.Takeover

/-!
# A majority can go on

Safety says that peers never deliver different commands; a cluster that delivers nothing is safe as
well. Here is the other half, as far as it does not depend on time: without a slip the cluster never
gets to a state in which a majority of the peers is stuck. Whatever the roles, the terms and the
logs are, and whatever calls are under way, the peers of the majority can go on and deliver any
command (`available`), with the others crashed or out of reach.

`Takeover` elects a leader. The rest goes in stages, most of them a `Can`; the continuation of the
run is put together from them, so that the promotion and the `Start` can be found in it.

* `exists_start`: the leader takes the command. From now on its log ends with an entry of its own
  term (`Serves`), and this is what keeps its requests from erasing: an entry of that term is
  nowhere that it is not in the leader's log (`Reached.lt_length`), so what a peer has behind the
  leader's log is in conflict with it (`Serves.not_loses`).
* `Serves.can_sync`: the leader writes to a peer until it takes the log over. That this comes to an
  end is the argument of `Repair`: every rejection uses up a term (`untried`).
* `Serves.can_commit`: in one round all peers answer, and with a majority of the answers the leader
  commits its log (`Polls`).
* `Serves.can_spread`, `Settled.can_deliver`: one more heartbeat to each peer tells it so, and
  `apply` delivers what is committed.

A cluster of one peer never gets that far (`not_leader_of_single`).
-/

namespace GoLabs.Consensus

open GoLabs.Lib

variable {n : ℕ} {C : Type} {Q : Finset (Fin n)} {s p : Fin n} {L : List (LogEntry C)}
  {st : Cluster n C}

/-! ## The leader at work -/

/-- `s` leads the peers of `Q`; its log is `L` and ends with an entry of its term. -/
structure Serves (Q : Finset (Fin n)) (s : Fin n) (L : List (LogEntry C)) (st : Cluster n C) :
    Prop where
  role : (st.rafts s).state = .leader
  log : (st.rafts s).log = L
  last : (st.rafts s).lastLogTerm? = some (st.rafts s).currentTerm
  followed : Followed Q s st

/-- A heartbeat leaves the leader in its place. -/
lemma Serves.of_update (h : Serves Q s L st) {rf rf' : Raft n C} (hne : p ≠ s)
    (hrole : rf.state = .follower) (hT : rf.currentTerm ≤ (st.rafts s).currentTerm)
    (hrole' : rf'.state = .leader) (hT' : rf'.currentTerm = (st.rafts s).currentTerm)
    (hlog : rf'.log = L) {y : Cluster n C}
    (hrafts : y.rafts = Function.update (Function.update st.rafts p rf) s rf') :
    Serves Q s L y ∧ y.rafts p = rf ∧ y.rafts s = rf' ∧
      ∀ q, q ≠ s → q ≠ p → y.rafts q = st.rafts q := by
  have hys : y.rafts s = rf' := by rw [hrafts, Function.update_self]
  have hyp : y.rafts p = rf := by
    rw [hrafts, Function.update_of_ne hne, Function.update_self]
  have hother : ∀ q, q ≠ s → q ≠ p → y.rafts q = st.rafts q := fun q hqs hqp => by
    rw [hrafts, Function.update_of_ne hqs, Function.update_of_ne hqp]
  refine ⟨⟨by rw [hys, hrole'], by rw [hys, hlog], ?_, fun q hq hqs => ?_⟩, hyp, hys, hother⟩
  · rw [hys, hT', ← h.last, Raft.lastLogTerm?, Raft.lastLogTerm?, Raft.lastLogIndex,
      Raft.lastLogIndex, hlog, h.log]
  · rw [hys, hT']
    by_cases hqp : q = p
    · subst hqp
      rw [hyp]
      exact ⟨hrole, hT⟩
    · rw [hother q hqs hqp]
      exact h.followed q hq hqs

/-- What the leader does with a success: it notes it and counts it, and with a majority it commits
its log.
Source: `raft.go` `HeartBeat` -/
lemma Raft.heartBeatReply_counts {rf : Raft n C} (rd : Round n C) (args : AppendEntriesArgs n C)
    (hn : (p : ℕ) < rf.nextIndex.length) (hm : (p : ℕ) < rf.matchIndex.length) (T : ℕ)
    (calls : Fin n → Rpc (AppendEntriesArgs n C) AppendEntriesReply) :
    ∃ rf' rd', rf.heartBeatReply { rd with calls := calls } p args ⟨T, true⟩ = some (rf', rd') ∧
      rf'.state = rf.state ∧ rf'.currentTerm = rf.currentTerm ∧ rf'.log = rf.log ∧
      rd'.leader = rd.leader ∧ rd'.calls = calls ∧ rd'.count = rd.count + 1 ∧
      ((rf'.commitIndex = rf.commitIndex ∧ rd'.done = rd.done ∧
          (rd.done = true ∨ rd.count + 1 ≤ n / 2)) ∨
        rf'.commitIndex = (rf.log.length : ℤ) - 1) := by
  obtain ⟨nextIndex, hnext, -⟩ := Slice.exists_set? hn (rf.log.length : ℤ)
  obtain ⟨matchIndex, hmatch, -⟩ := Slice.exists_set? hm ((rf.log.length : ℤ) - 1)
  simp only [Raft.heartBeatReply, hnext, hmatch, Bool.not_true, Bool.false_eq_true, if_false,
    Option.bind_eq_bind, Option.bind_some]
  split_ifs with hfew
  · exact ⟨_, _, rfl, rfl, rfl, rfl, rfl, rfl, rfl, Or.inl ⟨rfl, rfl, hfew⟩⟩
  · exact ⟨_, _, rfl, rfl, rfl, rfl, rfl, rfl, rfl, Or.inr rfl⟩

/-- A follower that takes a request is not behind the commit index that it carries. -/
lemma Raft.accept_commitIndex_ge (rf : Raft n C) (args : AppendEntriesArgs n C)
    (h : args.leaderCommit ≤ ((rf.accept args).log.length : ℤ) - 1) :
    args.leaderCommit ≤ (rf.accept args).commitIndex := by
  rw [Raft.accept_log] at h
  simp only [Raft.accept]
  split_ifs <;> omega

/-- A delivery is the building of the request and its handling. -/
lemma deliver_parts {leader follower rf : Raft n C} {args : AppendEntriesArgs n C}
    {reply : AppendEntriesReply} (h : deliver s p leader follower = some (args, rf, reply)) :
    leader.heartBeatArgs s p = some args ∧ follower.appendEntries args = some (rf, reply) := by
  simp only [deliver, Option.bind_eq_bind, Option.bind_eq_some_iff] at h
  obtain ⟨args', hargs, ⟨rf', reply'⟩, happ, h⟩ := h
  cases h
  exact ⟨hargs, happ⟩

section Runs

variable [Inhabited C]

/-- The books of a leader are in order. -/
lemma Reached.booksOk (hr : Reached st) (hs : (st.rafts s).state = .leader) :
    BooksOk (st.rafts s) := by
  obtain ⟨tr, hrun, -⟩ := hr
  exact (booksOk_of_run hrun s).1 hs

/-- The indices are inside the log. -/
lemma Reached.indicesOk (hr : Reached st) (s : Fin n) : IndicesOk (st.rafts s) := by
  obtain ⟨tr, hrun, hD⟩ := hr
  exact (commitOk_of_run hrun hD (Visited.now _ _) s).indices

/-- The entries of a leader's own term are in its log, wherever they are. -/
lemma Reached.lt_length (hr : Reached st) (hs : (st.rafts s).state = .leader) {i : ℕ}
    {e : LogEntry C} (hi : 1 ≤ i) (he : (st.rafts p).log[i]? = some e)
    (hT : e.term = (st.rafts s).currentTerm) : i < (st.rafts s).log.length := by
  obtain ⟨tr, hrun, -, hD⟩ := hr.electionSlip
  have hu := oneAppender_of_run hrun hD
  obtain ⟨y, s', hy, hl, hyT, hlog⟩ :=
    ((sourced_of_run hrun hu (Visited.now _ _) p).2 i e hi he).leader hrun
  obtain rfl := leader_unique hrun hD hy (Visited.now _ _) hl hs (hyT.trans hT)
  have hpre := ((phase_of_visited hrun hy s').2 (hyT.trans hT) (by simp [hs])).2
  have hlen := (List.getElem?_eq_some_iff.mp he).1
  have hle := hpre.length_le
  rw [hlog, List.length_take] at hle
  omega

/-- **A leader whose last entry is of its own term never erases**: what it does not have is of older
terms, and conflicts. -/
lemma Serves.not_loses (h : Serves Q s L st) (hr : Reached st) (hp : p ∈ Q) (hne : p ≠ s)
    {args : AppendEntriesArgs n C} (hargs : (st.rafts s).heartBeatArgs s p = some args) :
    ¬ (st.rafts p).loses args := by
  rintro ⟨hacc, hpre, hlt⟩
  obtain ⟨-, -, h0, ⟨prev, hprev, hpt⟩, hent, -⟩ := Raft.heartBeatArgs_eq_some hargs
  obtain ⟨-, -, -, f, hf, hft⟩ := Raft.accepts_iff.mp hacc
  obtain ⟨last, hlast, hlT⟩ := lastLogTerm?_eq_some h.last
  have hlen := (List.getElem?_eq_some_iff.mp hprev).1
  have hnat : (args.prevLogIndex + 1).toNat = args.prevLogIndex.toNat + 1 := by omega
  rw [hent, List.length_drop] at hlt
  -- the peer has an entry of the leader's term where the leader's log ends
  have hend : ∃ g, (st.rafts p).log[(st.rafts s).log.length - 1]? = some g ∧
      g.term = (st.rafts s).currentTerm := by
    rcases Nat.lt_or_ge args.prevLogIndex.toNat ((st.rafts s).log.length - 1) with hin | hout
    · have hterm : (args.entries.map LogEntry.term)[(st.rafts s).log.length - 1 -
          (args.prevLogIndex.toNat + 1)]? = some last.term := by
        rw [hent, List.getElem?_map, List.getElem?_drop, Nat.add_sub_cancel' (by omega), hlast,
          Option.map_some]
      have hpeer := getElem?_of_isPrefix hpre hterm
      rw [List.getElem?_map, List.getElem?_drop, hnat, Nat.add_sub_cancel' (by omega),
        Option.map_eq_some_iff] at hpeer
      obtain ⟨g, hg, hgT⟩ := hpeer
      exact ⟨g, hg, hgT.trans hlT⟩
    · have heq : (st.rafts s).log.length - 1 = args.prevLogIndex.toNat := by omega
      rw [heq] at hlast ⊢
      rw [hprev, Option.some.injEq] at hlast
      exact ⟨f, hf, by rw [hft, ← hpt, hlast, hlT]⟩
  obtain ⟨g, hg, hgT⟩ := hend
  obtain ⟨e, he⟩ : ∃ e, (st.rafts p).log[(st.rafts s).log.length]? = some e :=
    ⟨_, List.getElem?_eq_getElem (by omega)⟩
  have hshape : LogShape (st.rafts p).currentTerm (st.rafts p).log := by
    obtain ⟨tr, hrun, -⟩ := hr
    exact logShape_of_run hrun (Visited.now _ _) p
  have hle : g.term ≤ e.term := hshape.term_le (Nat.sub_le _ _) hg he
  have hbound := hshape.bound e (List.mem_of_getElem? he)
  have hterm := (h.followed p hp hne).2
  exact lt_irrefl _ (hr.lt_length h.role (by omega) he (by omega))

/-! ## One heartbeat -/

/-- What is left to try for the log of `p`: the terms of the leader's log before `nextIndex`. -/
def untried (L : List (LogEntry C)) (s p : Fin n) (st : Cluster n C) : ℕ :=
  (terms L (nextOf p (st.rafts s, st.rafts p)).toNat).card

/-- The goroutine of the round for `p` can run, and the answers so far are for the whole log. -/
structure Ready (s p : Fin n) (r : ℕ) (rd : Round n C) (st : Cluster n C) : Prop where
  round : st.rounds[r]? = some rd
  leader : rd.leader = s
  spawned : rd.calls p = .spawned
  covers : ∀ q args reply, rd.calls q = .returned args reply → (st.rafts s).covers args

/-- The peer has taken over the log, and the leader has counted it. -/
structure Taken (s p : Fin n) (L : List (LogEntry C)) (r : ℕ) (rd : Round n C)
    (st y : Cluster n C) : Prop where
  log : (y.rafts p).log = L
  commitIndex : (st.rafts s).commitIndex ≤ (y.rafts p).commitIndex
  round : ∃ rd' args reply, y.rounds[r]? = some rd' ∧ rd'.leader = s ∧
    rd'.calls = Function.update rd.calls p (.returned args reply) ∧ (y.rafts s).covers args ∧
    rd'.count = rd.count + 1 ∧
    (rd'.done = rd.done ∧ (rd.done = true ∨ rd.count + 1 ≤ n / 2) ∨
      (y.rafts s).commitIndex = (L.length : ℤ) - 1)

/-- A heartbeat that the peer takes. -/
lemma Serves.can_take (h : Serves Q s L st) (hr : Reached st) (hs : s ∈ Q) (hp : p ∈ Q)
    (hne : p ≠ s) {r : ℕ} {rd : Round n C} (hready : Ready s p r rd st)
    {args : AppendEntriesArgs n C} {rf : Raft n C}
    (hargs : (st.rafts s).heartBeatArgs s p = some args)
    (happ : (st.rafts p).appendEntries args = some (rf, ⟨(st.rafts s).currentTerm, true⟩))
    (hlog : rf.log = L) :
    Can Q (fun y => Serves Q s L y ∧ (∀ q, q ≠ s → q ≠ p → y.rafts q = st.rafts q) ∧
      ((y.rafts s).commitIndex = (st.rafts s).commitIndex ∨
        (y.rafts s).commitIndex = (L.length : ℤ) - 1) ∧ Taken s p L r rd st y) st := by
  obtain ⟨hrd, rfl, hc, hcov⟩ := hready
  obtain ⟨hfollower, hT⟩ := h.followed p hp hne
  obtain ⟨hterm, -, h0, ⟨prev, hprev, -⟩, hent, hcommit⟩ := Raft.heartBeatArgs_eq_some hargs
  obtain ⟨-, hrf⟩ := Raft.appendEntries_success hfollower happ rfl
  have hbooks := hr.booksOk h.role
  have hn : (p : ℕ) < (st.rafts rd.leader).nextIndex.length := by
    rw [hbooks.next_length]
    exact p.isLt
  have hm : (p : ℕ) < (st.rafts rd.leader).matchIndex.length := by
    rw [hbooks.match_length]
    exact p.isLt
  obtain ⟨rf', rd', hreply, hrole', hT', hlog', hlead', hcalls', hcount', hdone'⟩ :=
    Raft.heartBeatReply_counts rd args hn hm (st.rafts rd.leader).currentTerm
      (Function.update rd.calls p (.returned args ⟨(st.rafts rd.leader).currentTerm, true⟩))
  have hcovers : (st.rafts rd.leader).covers args := by
    have hlen := (List.getElem?_eq_some_iff.mp hprev).1
    simp only [Raft.covers, decide_eq_true_eq]
    rw [hent, List.length_drop]
    omega
  apply (can_beat hr hrd hc hp hs hne.symm h.role hargs (Or.inl hfollower)
    (h.not_loses hr hp hne hargs) happ (fun _ => ⟨hcovers, hcov, h.last⟩) hreply).mono
  rintro y _ ⟨hrafts, hrd'⟩
  have hrole : rf.state = .follower := by rw [hrf]; exact hfollower
  have hTrf : rf.currentTerm = (st.rafts rd.leader).currentTerm := by rw [hrf]; exact hterm
  obtain ⟨hserves, hyp, hys, hother⟩ := h.of_update hne hrole hTrf.le (hrole'.trans h.role) hT'
    (hlog'.trans h.log) hrafts
  rw [h.log] at hdone'
  refine ⟨hserves, hother, ?_, by rw [hyp, hlog], ?_, rd', args, _, hrd', hlead', hcalls', ?_,
    hcount', ?_⟩
  · rw [hys]
    exact hdone'.imp (fun h => h.1) id
  · rw [hyp, hrf, ← hcommit]
    apply Raft.accept_commitIndex_ge
    rw [← hrf, hlog, hcommit, ← h.log]
    exact (hr.indicesOk rd.leader).commit_le
  · rw [hys, Raft.covers, hT', hlog']
    exact hcovers
  · rw [hys]
    exact hdone'.imp (fun h => h.2) id

/-- **One heartbeat**: the peer takes over the log, or less is left to try. -/
lemma Serves.can_exchange (h : Serves Q s L st) (hr : Reached st) (hs : s ∈ Q) (hp : p ∈ Q)
    (hne : p ≠ s) {r : ℕ} {rd : Round n C} (hready : Ready s p r rd st) :
    Can Q (fun y => Serves Q s L y ∧ (∀ q, q ≠ s → q ≠ p → y.rafts q = st.rafts q) ∧
      ((y.rafts s).commitIndex = (st.rafts s).commitIndex ∨
        (y.rafts s).commitIndex = (L.length : ℤ) - 1) ∧
      (Taken s p L r rd st y ∨ (st.rafts p).log ≠ L ∧ untried L s p y < untried L s p st)) st := by
  obtain ⟨hfollower, hT⟩ := h.followed p hp hne
  obtain ⟨hrep, hmatch⟩ : Repairable (st.rafts s) (st.rafts p) p ∧
      LogsMatch (st.rafts s).log (st.rafts p).log := by
    obtain ⟨tr, hrun, -, hD⟩ := hr.electionSlip
    exact repairable_of_run hrun (oneAppender_of_run hrun hD) h.role hfollower hT
  obtain ⟨i, prev, args, hnext, hprev, hpt, hcases⟩ := deliver_spec s hfollower hrep.repairing
  rcases hcases with ⟨hagree, rf, hlog, hdel⟩ | ⟨hno, hdel⟩
  · obtain ⟨hargs, happ⟩ := deliver_parts hdel
    rw [log_eq_of_agree hmatch hagree, h.log] at hlog
    apply (h.can_take hr hs hp hne hready hargs happ hlog).mono
    rintro y _ ⟨hserves, hother, hcommit, htaken⟩
    exact ⟨hserves, hother, hcommit, Or.inl htaken⟩
  · obtain ⟨hargs, happ⟩ := deliver_parts hdel
    have hi : 1 ≤ i := by
      by_contra hlt
      obtain rfl : i = 0 := by omega
      exact hno hrep.agree
    obtain ⟨k, -, -, hmeas, hhandler⟩ := (backsUp_heartBeatReply hrep.table hrep.head).reject
      (st.rafts s).nextIndex { rd with
        calls := Function.update rd.calls p (.returned args ⟨(st.rafts s).currentTerm, false⟩) }
      args i prev hi hnext hprev hpt
    obtain ⟨new, hset, -⟩ := Slice.exists_set? (List.getElem?_eq_some_iff.mp hnext).1 (k : ℤ)
    obtain ⟨hrd, rfl, hc, -⟩ := hready
    apply (can_beat hr hrd hc hp hs hne.symm h.role hargs (Or.inl hfollower)
      (h.not_loses hr hp hne hargs) happ (by simp) (hhandler new hset)).mono
    rintro y _ ⟨hrafts, -⟩
    obtain ⟨hserves, hyp, hys, hother⟩ :=
      h.of_update hne (by exact hfollower) (by exact le_refl _) (by exact h.role) (by rfl)
        (by exact h.log) hrafts
    refine ⟨hserves, hother, Or.inl (by rw [hys]), Or.inr ⟨fun hsame => hno ?_, ?_⟩⟩
    · rw [hsame, ← h.log]
      exact ⟨prev, prev, hprev, hprev, rfl⟩
    · have hget : new[(p : ℕ)]? = some (k : ℤ) := by
        rw [Slice.getElem?_of_set? hset, if_pos rfl]
      rw [untried, untried, nextOf, nextOf, hys, hget, hnext, Option.getD_some, Option.getD_some,
        ← h.log]
      exact hmeas

omit [Inhabited C] in
/-- A step that changes no peer leaves the leader at work. -/
lemma Serves.of_rafts (h : Serves Q s L st) {y : Cluster n C} (hrafts : y.rafts = st.rafts) :
    Serves Q s L y := by
  obtain ⟨hrole, hlog, hlast, hfollowed⟩ := h
  rw [Followed, ← hrafts] at hfollowed
  rw [← hrafts] at hrole hlog hlast
  exact ⟨hrole, hlog, hlast, hfollowed⟩

omit [Inhabited C] in
/-- Nothing is known yet of a round that has just been started. -/
lemma ready_fresh {r : ℕ} (hrd : st.rounds[r]? = some (Round.fresh s)) (hne : p ≠ s) :
    Ready s p r (Round.fresh s) st := by
  refine ⟨hrd, rfl, fresh_calls hne, fun q args reply hq => ?_⟩
  by_cases hqs : q = s
  · simp [Round.fresh, Cluster.spawn, hqs] at hq
  · rw [fresh_calls hqs] at hq
    cases hq

/-- A heartbeat in a round of its own. -/
lemma Serves.can_write (h : Serves Q s L st) (hr : Reached st) (hs : s ∈ Q) (hp : p ∈ Q)
    (hne : p ≠ s) :
    Can Q (fun y => Serves Q s L y ∧ (∀ q, q ≠ s → q ≠ p → y.rafts q = st.rafts q) ∧
      ((y.rafts s).commitIndex = (st.rafts s).commitIndex ∨
        (y.rafts s).commitIndex = (L.length : ℤ) - 1) ∧
      ((y.rafts p).log = L ∧ (st.rafts s).commitIndex ≤ (y.rafts p).commitIndex ∨
        (st.rafts p).log ≠ L ∧ untried L s p y < untried L s p st)) st := by
  apply (can_heartBeat hr hs h.role).bind
  rintro x hx ⟨hrafts, r, hrd⟩
  have hsame : untried L s p x = untried L s p st := by rw [untried, untried, hrafts]
  rw [← hsame, ← hrafts]
  apply ((h.of_rafts hrafts).can_exchange hx hs hp hne (ready_fresh hrd hne)).mono
  rintro y _ ⟨hserves, hother, hcommit, hcases⟩
  exact ⟨hserves, hother, hcommit, hcases.imp (fun h => ⟨h.log, h.commitIndex⟩) id⟩

/-! ## The same log everywhere -/

/-- All peers of `Q` have the log. -/
def Synced (Q : Finset (Fin n)) (L : List (LogEntry C)) (st : Cluster n C) : Prop :=
  ∀ p ∈ Q, (st.rafts p).log = L

omit [Inhabited C] in
/-- Only the leader and the peer that it wrote to have changed, and both have the log. -/
lemma Synced.of_other {A B : Finset (Fin n)} {y : Cluster n C} (h : Synced B L st)
    (hlog : (y.rafts p).log = L) (hy : Serves Q s L y)
    (hother : ∀ q, q ≠ s → q ≠ p → y.rafts q = st.rafts q)
    (hsub : ∀ q ∈ A, q ≠ s → q ≠ p → q ∈ B) : Synced A L y := by
  intro q hq
  by_cases hqp : q = p
  · rw [hqp, hlog]
  · by_cases hqs : q = s
    · rw [hqs, hy.log]
    · rw [hother q hqs hqp]
      exact h q (hsub q hq hqs hqp)

/-- **The leader can give its log to a peer**, writing to it until it takes it over. -/
lemma Serves.can_sync (h : Serves Q s L st) (hr : Reached st) (hs : s ∈ Q) (hp : p ∈ Q)
    (hne : p ≠ s) :
    Can Q (fun y => Serves Q s L y ∧ (y.rafts p).log = L ∧
      ∀ q, q ≠ s → q ≠ p → y.rafts q = st.rafts q) st := by
  refine Can.of_measure (P := fun x => Serves Q s L x ∧ ∀ q, q ≠ s → q ≠ p →
    x.rafts q = st.rafts q) (untried L s p) (fun x hx hP => ?_) hr ⟨h, fun _ _ _ => rfl⟩
  obtain ⟨hserves, hother⟩ := hP
  apply (hserves.can_write hx hs hp hne).mono
  rintro y _ ⟨hy, hyo, _, hcases⟩
  have hsame : ∀ q, q ≠ s → q ≠ p → y.rafts q = st.rafts q := fun q hqs hqp =>
    (hyo q hqs hqp).trans (hother q hqs hqp)
  exact hcases.imp (fun h => ⟨hy, h.1, hsame⟩) fun h => ⟨⟨hy, hsame⟩, h.2⟩

/-- The leader can bring its log to all peers of `Q`. -/
lemma Serves.can_syncAll (h : Serves Q s L st) (hr : Reached st) (hs : s ∈ Q) :
    Can Q (fun y => Serves Q s L y ∧ Synced Q L y) st := by
  refine (Can.of_finset (A := Q.erase s) (R := fun B y => Serves Q s L y ∧ Synced B L y) ?_ hr
    ⟨h, fun p hp => absurd hp (Finset.notMem_empty p)⟩).mono fun y _ hR => ?_
  · intro B p y hp hB hy hR
    obtain ⟨hne, hpQ⟩ := Finset.mem_erase.mp hp
    apply (hR.1.can_sync hy hs hpQ hne).mono
    rintro z _ ⟨hz, hlog, hother⟩
    exact ⟨hz, hR.2.of_other hlog hz hother fun q hq _ hqp =>
      Finset.mem_of_mem_insert_of_ne hq hqp⟩
  · obtain ⟨hy, hsync⟩ := hR
    exact ⟨hy, hsync.of_other hy.log hy (fun _ _ _ => rfl) fun q hq hqs _ =>
      Finset.mem_erase.mpr ⟨hqs, hq⟩⟩

/-! ## Committing -/

omit [Inhabited C] in
/-- The leader's term goes with its log. -/
lemma Serves.covers_eq {y : Cluster n C} (h : Serves Q s L st) (hy : Serves Q s L y)
    (args : AppendEntriesArgs n C) : (y.rafts s).covers args = (st.rafts s).covers args := by
  have hlog : (y.rafts s).log = (st.rafts s).log := hy.log.trans h.log.symm
  have hlast : (y.rafts s).lastLogTerm? = (st.rafts s).lastLogTerm? := by
    rw [Raft.lastLogTerm?, Raft.lastLogTerm?, Raft.lastLogIndex, Raft.lastLogIndex, hlog]
  have hT : (y.rafts s).currentTerm = (st.rafts s).currentTerm := by
    rw [h.last, hy.last] at hlast
    exact Option.some.inj hlast
  rw [Raft.covers, Raft.covers, hlog, hT]

/-- The leader has the answers of the peers in `V` in a round, which are too few to commit, and can
write to the others. -/
structure Polls (Q : Finset (Fin n)) (s : Fin n) (r : ℕ) (V : Finset (Fin n)) (st : Cluster n C) :
    Prop where
  few : V.card + 1 ≤ n / 2
  round : ∃ rd, st.rounds[r]? = some rd ∧ rd.leader = s ∧ rd.done = false ∧
    rd.count = V.card + 1 ∧ (∀ p ∈ Q, p ≠ s → p ∉ V → rd.calls p = .spawned) ∧
    ∀ q args reply, rd.calls q = .returned args reply → (st.rafts s).covers args

/-- One more answer commits the log, or leaves fewer to write to. -/
lemma Polls.can_count {r : ℕ} {V : Finset (Fin n)} (h : Polls Q s r V st) (hr : Reached st)
    (hserves : Serves Q s L st) (hsync : Synced Q L st) (hs : s ∈ Q) (hp : p ∈ Q) (hne : p ≠ s)
    (hV : p ∉ V) :
    Can Q (fun y => Serves Q s L y ∧ Synced Q L y ∧
      ((y.rafts s).commitIndex = (L.length : ℤ) - 1 ∨ Polls Q s r (insert p V) y)) st := by
  obtain ⟨hfew, rd, hrd, hlead, hdone, hcount, hcalls, hcov⟩ := h
  apply (hserves.can_exchange hr hs hp hne ⟨hrd, hlead, hcalls p hp hne hV, hcov⟩).mono
  rintro y _ ⟨hy, hother, -, hcases⟩
  obtain ⟨hlog, -, rd', args, reply, hrd', hlead', hcalls', hcov', hcount', hdone'⟩ :=
    hcases.resolve_right fun h => h.1 (hsync p hp)
  refine ⟨hy, hsync.of_other hlog hy hother fun q hq _ _ => hq, ?_⟩
  rcases hdone' with ⟨hdone', hmore⟩ | hcommit
  swap
  · exact Or.inl hcommit
  refine Or.inr ⟨?_, rd', hrd', hlead', hdone'.trans hdone, ?_, fun q hq hqs hqV => ?_,
    fun q args' reply' hq => ?_⟩
  · rw [Finset.card_insert_of_notMem hV, ← hcount]
    exact hmore.resolve_left (by simp [hdone])
  · rw [Finset.card_insert_of_notMem hV, ← hcount, hcount']
  · rw [Finset.mem_insert, not_or] at hqV
    rw [hcalls', Function.update_of_ne hqV.1]
    exact hcalls q hq hqs hqV.2
  · rw [hcalls'] at hq
    by_cases hqp : q = p
    · subst hqp
      rw [Function.update_self] at hq
      cases hq
      exact hcov'
    · rw [Function.update_of_ne hqp] at hq
      rw [hserves.covers_eq hy]
      exact hcov q args' reply' hq

/-- **The leader can commit its log** when all have it. -/
lemma Serves.can_commit (h : Serves Q s L st) (hr : Reached st) (hn : 2 ≤ n) (hQ : Majority Q)
    (hs : s ∈ Q) (hsync : Synced Q L st) :
    Can Q (fun y => Serves Q s L y ∧ Synced Q L y ∧
      (y.rafts s).commitIndex = (L.length : ℤ) - 1) st := by
  apply (can_heartBeat hr hs h.role).bind
  rintro x hx ⟨hrafts, r, hrd⟩
  have hxs : Synced Q L x := fun p hp => by
    rw [hrafts]
    exact hsync p hp
  refine (Can.of_finset (A := Q.erase s) (R := fun V y => Serves Q s L y ∧ Synced Q L y ∧
    ((y.rafts s).commitIndex = (L.length : ℤ) - 1 ∨ Polls Q s r V y)) ?_ hx
    ⟨h.of_rafts hrafts, hxs, Or.inr ?_⟩).mono fun y _ hR => ?_
  · intro V p y hp hV hy hR
    obtain ⟨hserves, hsync, hcommit | hpolls⟩ := hR
    · exact .now hy ⟨hserves, hsync, Or.inl hcommit⟩
    · obtain ⟨hne, hpQ⟩ := Finset.mem_erase.mp hp
      exact hpolls.can_count hy hserves hsync hs hpQ hne hV
  · refine ⟨by rw [Finset.card_empty]; omega, Round.fresh s, hrd, rfl, rfl, rfl,
      fun p _ hne _ => fresh_calls hne, fun q args reply hq => ?_⟩
    by_cases hqs : q = s
    · simp [Round.fresh, Cluster.spawn, hqs] at hq
    · rw [fresh_calls hqs] at hq
      cases hq
  · obtain ⟨hy, hys, hcases⟩ := hR
    refine ⟨hy, hys, hcases.resolve_right fun hpolls => ?_⟩
    -- the answers of all of `Q` are not too few
    have hfew := hpolls.few
    rw [Majority, Fintype.card_fin] at hQ
    rw [Finset.card_erase_add_one hs] at hfew
    omega

/-- All peers of `Q` have the log and have committed all of it. -/
def Settled (Q : Finset (Fin n)) (L : List (LogEntry C)) (st : Cluster n C) : Prop :=
  ∀ p ∈ Q, (st.rafts p).log = L ∧ (st.rafts p).commitIndex = (L.length : ℤ) - 1

/-- **The others can follow** the leader's commit index. -/
lemma Serves.can_spread (h : Serves Q s L st) (hr : Reached st) (hs : s ∈ Q)
    (hsync : Synced Q L st) (hcommit : (st.rafts s).commitIndex = (L.length : ℤ) - 1) :
    Can Q (fun y => Settled Q L y) st := by
  refine (Can.of_finset (A := Q.erase s) (R := fun B y => Serves Q s L y ∧ Synced Q L y ∧
    (y.rafts s).commitIndex = (L.length : ℤ) - 1 ∧
    ∀ p ∈ B, p ≠ s → (L.length : ℤ) - 1 ≤ (y.rafts p).commitIndex) ?_ hr
    ⟨h, hsync, hcommit, fun p hp => absurd hp (Finset.notMem_empty p)⟩).mono
    fun y hy hR p hp => ?_
  · intro B p y hp hB hy hR
    obtain ⟨hserves, hsync, hcommit, hdone⟩ := hR
    obtain ⟨hne, hpQ⟩ := Finset.mem_erase.mp hp
    apply (hserves.can_write hy hs hpQ hne).mono
    rintro z _ ⟨hz, hother, hzc, hcases⟩
    obtain ⟨hlog, hle⟩ := hcases.resolve_right fun h => h.1 (hsync p hpQ)
    refine ⟨hz, hsync.of_other hlog hz hother fun q hq _ _ => hq, ?_, fun q hq hqs => ?_⟩
    · exact hzc.elim (fun h => h.trans hcommit) id
    · by_cases hqp : q = p
      · rw [hqp, ← hcommit]
        exact hle
      · rw [hother q hqs hqp]
        exact hdone q (Finset.mem_of_mem_insert_of_ne hq hqp) hqs
  · obtain ⟨-, hys, hyc, hB⟩ := hR
    refine ⟨hys p hp, ?_⟩
    by_cases hps : p = s
    · rw [hps, hyc]
    · have hle := (hy.indicesOk p).commit_le
      rw [hys p hp] at hle
      exact le_antisymm hle (hB p (Finset.mem_erase.mpr ⟨hps, hp⟩) hps)

/-! ## Delivering -/

/-- A peer can deliver the next entry that it has committed. -/
lemma can_applyNext (hr : Reached st) (hp : p ∈ Q)
    (hlt : (st.rafts p).lastApplied < (st.rafts p).commitIndex) :
    Can Q (fun y => y.rafts = Function.update st.rafts p { st.rafts p with
      lastApplied := (st.rafts p).lastApplied + 1 }) st := by
  have hnone := (hr.indicesOk p).apply_ne_none
  obtain ⟨e, he⟩ : ∃ e, Slice.get? (st.rafts p).log ((st.rafts p).lastApplied + 1) = some e := by
    refine Option.ne_none_iff_exists'.mp fun h => hnone ?_
    simp [Raft.apply, hlt, h]
  refine .step hr (not_strays_alone hp).2.2.2.2
    (y := { st.setRaft p { st.rafts p with lastApplied := (st.rafts p).lastApplied + 1 } with
      applyCh := Function.update st.applyCh p
        (st.applyCh p ++ [⟨true, e.command, (st.rafts p).lastApplied + 1⟩]) })
    (by simp [Cluster.step, Cluster.apply, Raft.apply, hlt, he, Cluster.setRaft])
    fun hy => .now hy rfl

/-- A peer can deliver everything that it has committed. -/
lemma can_apply (hr : Reached st) (hp : p ∈ Q) :
    Can Q (fun y => ∃ rf, y.rafts = Function.update st.rafts p rf ∧ rf.log = (st.rafts p).log ∧
      rf.commitIndex = (st.rafts p).commitIndex ∧ rf.lastApplied = rf.commitIndex) st := by
  refine Can.of_measure (P := fun x => ∃ rf, x.rafts = Function.update st.rafts p rf ∧
    rf.log = (st.rafts p).log ∧ rf.commitIndex = (st.rafts p).commitIndex)
    (fun x => ((x.rafts p).commitIndex - (x.rafts p).lastApplied).toNat) (fun x hx hP => ?_) hr
    ⟨st.rafts p, (Function.update_eq_self _ _).symm, rfl, rfl⟩
  obtain ⟨rf, hrafts, hlog, hcommit⟩ := hP
  have hxp : x.rafts p = rf := by rw [hrafts, Function.update_self]
  rcases (hx.indicesOk p).applied_le.lt_or_eq with hlt | heq
  · refine (can_applyNext hx hp hlt).mono fun y _ hy => Or.inr ?_
    have hyp : y.rafts p = { rf with lastApplied := rf.lastApplied + 1 } := by
      rw [hy, Function.update_self, hxp]
    rw [hxp] at hlt
    rw [hxp, hrafts, Function.update_idem] at hy
    refine ⟨⟨_, hy, hlog, hcommit⟩, ?_⟩
    rw [hyp, hxp]
    dsimp only
    omega
  · exact .now hx (Or.inl ⟨rf, hrafts, hlog, hcommit, by rw [← hxp, heq]⟩)

/-- All peers can deliver the whole log. -/
lemma Settled.can_deliver (h : Settled Q L st) (hr : Reached st) :
    Can Q (fun y => Settled Q L y ∧ ∀ p ∈ Q, y.applyCh p = deliveries L) st := by
  refine (Can.of_finset (A := Q) (R := fun B y => Settled Q L y ∧
    ∀ p ∈ B, (y.rafts p).lastApplied = (L.length : ℤ) - 1) ?_ hr
    ⟨h, fun p hp => absurd hp (Finset.notMem_empty p)⟩).mono
    fun y hy hR => ⟨hR.1, fun p hp => ?_⟩
  · intro B p y hp _ hy hR
    obtain ⟨hset, hdone⟩ := hR
    apply (can_apply hy hp).mono
    rintro z _ ⟨rf, hrafts, hlog, hcommit, happlied⟩
    obtain ⟨hylog, hycommit⟩ := hset p hp
    rw [Settled, hrafts]
    refine ⟨fun q hq => ?_, fun q hq => ?_⟩
    · by_cases hqp : q = p
      · subst hqp
        rw [Function.update_self, hlog, hcommit]
        exact hset q hq
      · rw [Function.update_of_ne hqp]
        exact hset q hq
    · by_cases hqp : q = p
      · subst hqp
        rw [Function.update_self, happlied, hcommit, hycommit]
      · rw [Function.update_of_ne hqp]
        exact hdone q (Finset.mem_of_mem_insert_of_ne hq hqp)
  · obtain ⟨hset, hB⟩ := hR
    obtain ⟨hlog, -⟩ := hset p hp
    obtain ⟨tr, hrun, hD⟩ := hy
    rw [delivered_of_run hrun hD p, hlog, hB p hp, List.take_of_length_le (by omega)]

/-! ## Results -/

/-- The leader takes a command, and its log then ends with an entry of its term. -/
lemma exists_start (hr : Reached st) (hl : (st.rafts s).state = .leader)
    (hfollowed : Followed Q s st) (c : C) :
    ∃ y, st.step (.start s c) = some y ∧
      Serves Q s ((st.rafts s).log ++ [⟨(st.rafts s).currentTerm, c⟩]) y := by
  obtain ⟨t, ht⟩ := hr.exists_lastLogTerm s
  let rf : Raft n C := { st.rafts s with
    termToIndex := if (st.rafts s).currentTerm ≠ t then
      Function.update (st.rafts s).termToIndex (st.rafts s).currentTerm
        ((st.rafts s).log.length : ℤ) else (st.rafts s).termToIndex
    log := (st.rafts s).log ++ [⟨(st.rafts s).currentTerm, c⟩] }
  have hys : (st.setRaft s rf).rafts s = rf := Function.update_self _ _ _
  refine ⟨st.setRaft s rf, by simp [Cluster.step, Cluster.start, Raft.start, hl, ht, rf],
    by rw [hys]; exact hl, by rw [hys], ?_, fun p hp hne => ?_⟩
  · rw [hys]
    simp [Raft.lastLogTerm?, Raft.lastLogIndex, rf, Slice.get?]
  · rw [hys, Cluster.setRaft_rafts, Function.update_of_ne hne]
    exact hfollowed p hp hne

/-- **The leader can commit its log at all peers and have it delivered.** -/
lemma Serves.can_deliver (h : Serves Q s L st) (hr : Reached st) (hn : 2 ≤ n) (hQ : Majority Q)
    (hs : s ∈ Q) : Can Q (fun y => Settled Q L y ∧ ∀ p ∈ Q, y.applyCh p = deliveries L) st := by
  apply (h.can_syncAll hr hs).bind
  rintro x hx ⟨hserves, hsync⟩
  apply (hserves.can_commit hx hn hQ hs hsync).bind
  rintro x hx ⟨hserves, hsync, hcommit⟩
  exact (hserves.can_spread hx hs hsync hcommit).bind fun x hx hset => hset.can_deliver hx

/-- **A majority can always go on.** From every state that a cluster of two or more peers reaches
without a slip, any majority of the peers can by itself, and again without a slip, go through four
stages: it promotes one of its peers to leader, this leader takes a given command with `Start`, all
of the majority have the command in their logs and have committed it, and all of them have delivered
the same commands, the given one last, with the index that `Start` returned. The other peers take no
step, so this is also so when they have crashed or cannot be reached. -/
theorem available (hn : 2 ≤ n) {tr : Trace n C} (h : (cluster n C).Run tr st)
    (hD : Avoids (fun x a => safetySlip x a) tr) (hQ : Majority Q) (c : C) :
    ∃ s ∈ Q, ∃ (tr₁ tr₂ : Trace n C) (x st' : Cluster n C),
      (cluster n C).Run (tr₂ ++ (x, .start s c) :: (tr₁ ++ tr)) st' ∧
      Avoids (strays Q) (tr₂ ++ (x, .start s c) :: tr₁) ∧
      (∃ q ∈ tr₁, becomesLeader q.1 q.2 s) ∧ (x.rafts s).state = .leader ∧
      (∀ p ∈ Q, (st'.rafts p).log = (x.rafts s).log ++ [⟨(x.rafts s).currentTerm, c⟩] ∧
        (st'.rafts p).commitIndex = ((x.rafts s).log.length : ℤ)) ∧
      ∃ msgs, ∀ p ∈ Q, st'.applyCh p = msgs ++ [⟨true, c, ((x.rafts s).log.length : ℤ)⟩] := by
  obtain ⟨s, hs, tr₁, x, hx, hD₁, hxr, hlead, hl, hfollowed⟩ := elects h hD hn hQ
  obtain ⟨y, hstart, hserves⟩ := exists_start hxr hl hfollowed c
  have hnot : ¬ strays Q x (.start s c) := (not_strays_alone hs).2.2.2.1 c
  have hyr : Reached y := hxr.step hnot hstart
  have hy : (cluster n C).Run ((x, .start s c) :: (tr₁ ++ tr)) y := hx.step hstart
  obtain ⟨tr₂, st', hrun, hD₂, -, hset, hdel⟩ := hy.continue (hserves.can_deliver hyr hn hQ hs)
  have hL : (x.rafts s).log ≠ [] := by
    obtain ⟨t, ht⟩ := hxr.exists_lastLogTerm s
    obtain ⟨e, he, -⟩ := lastLogTerm?_eq_some ht
    exact List.ne_nil_of_mem (List.mem_of_getElem? he)
  refine ⟨s, hs, tr₁, tr₂, x, st', hrun, hD₂.append (hD₁.cons hnot), hlead, hl, fun p hp => ?_,
    deliveries (x.rafts s).log, fun p hp => ?_⟩
  · obtain ⟨hlog, hcommit⟩ := hset p hp
    refine ⟨hlog, ?_⟩
    rw [hcommit]
    simp
  · rw [hdel p hp, deliveries_append hL]
    simp

/-- 0 leads and has appended a command, 2 stands for election and 1 follows. Without 0, the other
two elect one of themselves and deliver a command that it takes. -/
theorem available_run : ∃ tr st, (cluster 3 ℕ).Run tr st ∧
    (st.rafts 0).state = .leader ∧ (st.rafts 2).state = .candidate ∧
    ∃ s ∈ ({1, 2} : Finset (Fin 3)), ∃ (tr₁ tr₂ : Trace 3 ℕ) (x st' : Cluster 3 ℕ),
      (cluster 3 ℕ).Run (tr₂ ++ (x, .start s 20) :: (tr₁ ++ tr)) st' ∧
      (∃ q ∈ tr₁, becomesLeader q.1 q.2 s) ∧
      ∃ msgs i, st'.applyCh 1 = msgs ++ [⟨true, 20, i⟩] ∧
        st'.applyCh 2 = msgs ++ [⟨true, 20, i⟩] := by
  obtain ⟨tr, st, h, hD, hlead, hcand⟩ := (cluster 3 ℕ).exists_run_of_exec
    [.timer 0, .attemptEletion 0, .requestVote 0 1, .voteReply 0 1, .start 0 10, .timer 2,
      .attemptEletion 2]
    (fun tr st => Avoids (fun x a => safetySlip x a) tr ∧ (st.rafts 0).state = .leader ∧
      (st.rafts 2).state = .candidate) (by decide)
  obtain ⟨s, hs, tr₁, tr₂, x, st', hrun, -, hprom, -, -, msgs, hdel⟩ :=
    available (by decide) h hD (by decide : Majority ({1, 2} : Finset (Fin 3))) 20
  exact ⟨tr, st, h, hlead, hcand, s, hs, tr₁, tr₂, x, st', hrun, hprom, msgs, _, hdel 1 (by decide),
    hdel 2 (by decide)⟩

/-- A cluster of one peer never has a leader: a candidate becomes leader when it handles the answer
of another peer. -/
theorem not_leader_of_single {tr : Trace 1 C} {st : Cluster 1 C} (h : (cluster 1 C).Run tr st)
    (s : Fin 1) : (st.rafts s).state ≠ .leader := by
  induction h with
  | init => simp [cluster, Cluster.make, make]
  | @step tr x y a hrun hs ih =>
      intro hl
      rcases ((Step.of_cluster hs).peer s).leader_cases hl with hold | ⟨-, -, e, p, el, rfl, hel, -⟩
      · exact ih hold
      · have hidle := (electionsOk_of_run hrun el (List.mem_of_getElem? hel)).self_idle
        rw [Subsingleton.elim el.args.candidateId p] at hidle
        change x.voteReply e p = some y at hs
        simp [Cluster.voteReply, hel, hidle] at hs

/-- A peer on its own stands for election again and again. -/
theorem not_leader_of_single_run : ∃ tr st, (cluster 1 ℕ).Run tr st ∧
    (st.rafts 0).currentTerm = 2 ∧ (st.rafts 0).votedFor = some 0 ∧
    (st.rafts 0).state ≠ .leader := by
  obtain ⟨tr, st, h, hterm, hvote⟩ := (cluster 1 ℕ).exists_run_of_exec
    [.timer 0, .attemptEletion 0, .timer 0, .attemptEletion 0]
    (fun _ st => (st.rafts 0).currentTerm = 2 ∧ (st.rafts 0).votedFor = some 0) (by decide)
  exact ⟨tr, st, h, hterm, hvote, not_leader_of_single h 0⟩

end Runs

end GoLabs.Consensus
