import GoLabs.Consensus.Indices
import GoLabs.Consensus.Logs

/-!
# What a delivered request means

Two properties that the rest of the algorithm rests on, each of them a property of one handler.

* **A success means that the entries are stored.** True of a follower. A peer that is no follower
  steps down and answers success without looking at its log, so there it is true only of a request
  that is stored already (`stored_of_success`), and in general false (`stored_of_success_fails`).
* **A late request does not erase newer entries.** `AppendEntries` cuts the log behind
  `PrevLogIndex` before it appends, whether or not anything conflicts, so a request that is
  overtaken by a later one of the same leader takes entries away again (`lateRequest_fails`).
  Nothing is lost exactly when log and request go apart at a conflict or at the end of the log,
  and the log of a follower never becomes shorter exactly when the requests that it accepts come
  in the order of their ends (`lateRequest`).
-/

namespace GoLabs.Consensus

open GoLabs.Lib

variable {n : ℕ} {C : Type}

/-! ## A success -/

/-- The previous entry of the request is in the log, and its entries behind it. -/
def Raft.Stores (rf : Raft n C) (args : AppendEntriesArgs n C) : Prop :=
  (∃ prev ∈ rf.log[args.prevLogIndex.toNat]?, prev.term = args.prevLogTerm) ∧
    ∀ k < args.entries.length, rf.log[args.prevLogIndex.toNat + 1 + k]? = args.entries[k]?

instance [DecidableEq C] (rf : Raft n C) (args : AppendEntriesArgs n C) :
    Decidable (rf.Stores args) :=
  inferInstanceAs (Decidable ((∃ prev ∈ rf.log[args.prevLogIndex.toNat]?,
    prev.term = args.prevLogTerm) ∧ ∀ k < args.entries.length,
      rf.log[args.prevLogIndex.toNat + 1 + k]? = args.entries[k]?))

/-- The log after an accepted request, index by index: the old log up to `PrevLogIndex` and the
entries of the request behind it. -/
lemma Raft.accept_getElem? {rf : Raft n C} {args : AppendEntriesArgs n C} (hacc : rf.accepts args)
    (i : ℕ) : ({ rf with currentTerm := args.term }.accept args).log[i]? =
      if i ≤ args.prevLogIndex.toNat then rf.log[i]?
      else args.entries[i - (args.prevLogIndex.toNat + 1)]? := by
  obtain ⟨-, -, h0, prev, hprev, -⟩ := Raft.accepts_iff.mp hacc
  have hlt := (List.getElem?_eq_some_iff.mp hprev).1
  have hnat : (args.prevLogIndex + 1).toNat = args.prevLogIndex.toNat + 1 := by omega
  change (rf.log.take (args.prevLogIndex + 1).toNat ++ args.entries)[i]? = _
  rw [hnat]
  split_ifs with hi
  · rw [List.getElem?_append_left (by rw [List.length_take]; omega),
      List.getElem?_take_of_lt (by omega)]
  · rw [List.getElem?_append_right (by rw [List.length_take]; omega), List.length_take,
      min_eq_left (by omega)]

/-- An accepted request is stored. -/
lemma Raft.stores_accept {rf : Raft n C} {args : AppendEntriesArgs n C} (hacc : rf.accepts args) :
    ({ rf with currentTerm := args.term }.accept args).Stores args := by
  obtain ⟨-, -, -, prev, hprev, hpt⟩ := Raft.accepts_iff.mp hacc
  refine ⟨⟨prev, ?_, hpt⟩, fun k hk => ?_⟩
  · rw [Raft.accept_getElem? hacc, if_pos (le_refl _)]
    exact hprev
  · rw [Raft.accept_getElem? hacc, if_neg (by omega), Nat.add_sub_cancel_left]

/-- `AppendEntries` returns, whatever the state and the request, when `PrevLogIndex` is not
negative. -/
lemma Raft.exists_appendEntries (rf : Raft n C) {args : AppendEntriesArgs n C}
    (h0 : 0 ≤ args.prevLogIndex) : ∃ rf' reply, rf.appendEntries args = some (rf', reply) := by
  by_cases hs : rf.state = .follower
  · by_cases ht : rf.currentTerm ≤ args.term
    · by_cases hacc : rf.accepts args
      · exact ⟨_, _, Raft.appendEntries_of_accepts hacc⟩
      · exact ⟨_, _, Raft.appendEntries_of_not_accepts hs ht h0 hacc⟩
    · rw [Raft.appendEntries, if_neg (not_not.mpr hs), if_neg ht]
      exact ⟨_, _, rfl⟩
  · rw [Raft.appendEntries, if_pos hs]
    split_ifs
    · exact ⟨_, _, rfl⟩
    · exact ⟨_, _, rfl⟩

/-- **When a success means that the entries are stored.** The handler answers every request, and
its success means that the request is stored exactly when the peer is a follower, or in a later
term than the request (then it does not answer success), or has stored the request before. -/
theorem stored_of_success (rf : Raft n C) (args : AppendEntriesArgs n C)
    (h0 : 0 ≤ args.prevLogIndex) :
    ∃ rf' reply, rf.appendEntries args = some (rf', reply) ∧
      ((reply.success = true → rf'.Stores args) ↔
        rf.state = .follower ∨ args.term < rf.currentTerm ∨ rf.Stores args) := by
  obtain ⟨rf', reply, h⟩ := Raft.exists_appendEntries rf h0
  refine ⟨rf', reply, h, ?_⟩
  by_cases hs : rf.state = .follower
  · refine ⟨fun _ => Or.inl hs, fun _ hr => ?_⟩
    obtain ⟨hacc, rfl⟩ := Raft.appendEntries_success hs h hr
    exact Raft.stores_accept hacc
  · rw [Raft.appendEntries, if_pos hs] at h
    split_ifs at h with ht
    · -- the peer steps down and leaves its log as it is
      cases h
      exact ⟨fun hst => Or.inr (Or.inr (hst rfl)),
        fun hor _ => (hor.resolve_left hs).resolve_left (not_lt.mpr ht)⟩
    · cases h
      exact ⟨fun _ => Or.inr (Or.inl (not_le.mp ht)), fun _ hr => by cases hr⟩

/-- A follower that holds the placeholder only takes a request with one entry. -/
theorem stored_of_success_follower :
    ∃ r ∈ (make 2 ℕ).appendEntries ⟨1, 0, 0, 0, [⟨1, 10⟩], 0, fun _ => 0⟩, r.2.success = true ∧
      r.1.Stores ⟨1, 0, 0, 0, [⟨1, 10⟩], 0, fun _ => 0⟩ := by
  obtain ⟨rf', reply, h, hiff⟩ := stored_of_success (make 2 ℕ)
    ⟨1, 0, 0, 0, [⟨1, 10⟩], 0, fun _ => 0⟩ (by decide)
  have hr : ∃ r ∈ (make 2 ℕ).appendEntries ⟨1, 0, 0, 0, [⟨1, 10⟩], 0, fun _ => 0⟩,
      r.2.success = true := by decide
  obtain ⟨r, hmem, hr⟩ := hr
  rw [h, Option.mem_some_iff] at hmem
  subst hmem
  exact ⟨(rf', reply), h, hr, hiff.mpr (Or.inl rfl) hr⟩

/-- A reachable candidate and a leader's request to it. Peers 0 and 1 stand for term 1, 2 elects 0,
and 0 appends an entry. When the heartbeat of 0 reaches 1, still a candidate of term 1, 1 answers
success and has stored nothing. -/
theorem stored_of_success_fails : ∃ tr st, (cluster 3 ℕ).Run tr st ∧
    (st.rafts 1).state = .candidate ∧ ∃ args ∈ st.beatRequest? 0 1, 0 ≤ args.prevLogIndex ∧
      ∃ r ∈ (st.rafts 1).appendEntries args, r.2.success = true ∧ ¬ r.1.Stores args :=
  (cluster 3 ℕ).exists_run_of_exec
    [.timer 0, .attemptEletion 0, .timer 1, .attemptEletion 1, .requestVote 0 2, .voteReply 0 2,
      .start 0 10, .heartBeat 0, .heartBeatArgs 0 1]
    (fun _ st => (st.rafts 1).state = .candidate ∧ ∃ args ∈ st.beatRequest? 0 1,
      0 ≤ args.prevLogIndex ∧ ∃ r ∈ (st.rafts 1).appendEntries args,
        r.2.success = true ∧ ¬ r.1.Stores args) (by decide)

/-! ## A late request -/

/-- The entry that the request carries for the index `j` of the log. -/
def AppendEntriesArgs.entry? (args : AppendEntriesArgs n C) (j : ℕ) : Option (LogEntry C) :=
  if j ≤ args.prevLogIndex.toNat then none else args.entries[j - (args.prevLogIndex.toNat + 1)]?

/-- The index behind the last entry of the request: the length of the log it was built from. -/
def AppendEntriesArgs.reach (args : AppendEntriesArgs n C) : ℤ :=
  args.prevLogIndex + 1 + args.entries.length

/-- At index `j` the log and the request have entries of different terms. -/
def Conflict (rf : Raft n C) (args : AppendEntriesArgs n C) (j : ℕ) : Prop :=
  ∃ e ∈ rf.log[j]?, ∃ f ∈ args.entry? j, e.term ≠ f.term

instance (rf : Raft n C) (args : AppendEntriesArgs n C) (j : ℕ) : Decidable (Conflict rf args j) :=
  inferInstanceAs (Decidable (∃ e ∈ rf.log[j]?, ∃ f ∈ args.entry? j, e.term ≠ f.term))

/-- Behind `PrevLogIndex` the log and the request have the same entries, up to a place where the log
ends or where the two have entries of different terms. -/
def Raft.PartsAtConflict (rf : Raft n C) (args : AppendEntriesArgs n C) : Prop :=
  ∃ k ≤ (rf.log.drop (args.prevLogIndex.toNat + 1)).length,
    (rf.log.drop (args.prevLogIndex.toNat + 1)).take k = args.entries.take k ∧
      (k = (rf.log.drop (args.prevLogIndex.toNat + 1)).length ∨
        Conflict rf args (args.prevLogIndex.toNat + 1 + k))

instance Raft.decidablePartsAtConflict [DecidableEq C] (rf : Raft n C)
    (args : AppendEntriesArgs n C) : Decidable (rf.PartsAtConflict args) :=
  inferInstanceAs (Decidable (∃ k ≤ (rf.log.drop (args.prevLogIndex.toNat + 1)).length,
    (rf.log.drop (args.prevLogIndex.toNat + 1)).take k = args.entries.take k ∧
      (k = (rf.log.drop (args.prevLogIndex.toNat + 1)).length ∨
        Conflict rf args (args.prevLogIndex.toNat + 1 + k))))

/-- Two lists are equal up to the end of the first or up to an element of it that the second does
not have. -/
lemma exists_take_eq_take {α : Type} (l l' : List α) :
    ∃ k ≤ l.length, l.take k = l'.take k ∧ (k = l.length ∨ ∃ e ∈ l[k]?, l'[k]? ≠ some e) := by
  induction l generalizing l' with
  | nil => exact ⟨0, le_refl _, rfl, Or.inl rfl⟩
  | cons e l ih =>
      by_cases he : l'[0]? = some e
      · obtain ⟨t, rfl⟩ : ∃ t, l' = e :: t := by
          cases l' with
          | nil => cases he
          | cons f t => exact ⟨t, by rw [Option.some.inj he]⟩
        obtain ⟨k, hk, htake, hend⟩ := ih t
        refine ⟨k + 1, Nat.succ_le_succ hk, by simp [htake], ?_⟩
        simpa using hend
      · exact ⟨0, Nat.zero_le _, rfl, Or.inr ⟨e, rfl, he⟩⟩

/-- The request has an entry only for the indices behind `PrevLogIndex`. -/
lemma AppendEntriesArgs.entry?_eq_some {args : AppendEntriesArgs n C} {j : ℕ} {f : LogEntry C}
    (h : args.entry? j = some f) :
    ∃ k, j = args.prevLogIndex.toNat + 1 + k ∧ args.entries[k]? = some f := by
  unfold AppendEntriesArgs.entry? at h
  split_ifs at h with hj
  exact ⟨j - (args.prevLogIndex.toNat + 1), by omega, h⟩

section PartsAtConflict

variable {rf : Raft n C} {args : AppendEntriesArgs n C} {k : ℕ}

/-- Up to the place where they part, log and request have the same entry at each index. -/
lemma Raft.getElem?_of_take_eq
    (htake : (rf.log.drop (args.prevLogIndex.toNat + 1)).take k = args.entries.take k) {m : ℕ}
    (hm : m < k) : rf.log[args.prevLogIndex.toNat + 1 + m]? = args.entries[m]? := by
  have h := congrArg (fun l => l[m]?) htake
  simpa only [List.getElem?_take_of_lt hm, List.getElem?_drop] using h

/-- An entry that a request takes away lies at or behind the place where log and request part. -/
lemma Raft.le_of_removed (hacc : rf.accepts args)
    (htake : (rf.log.drop (args.prevLogIndex.toNat + 1)).take k = args.entries.take k)
    {i : ℕ} {e : LogEntry C} (he : rf.log[i]? = some e)
    (hne : ({ rf with currentTerm := args.term }.accept args).log[i]? ≠ some e) :
    args.prevLogIndex.toNat + 1 + k ≤ i := by
  by_contra hlt
  refine hne ?_
  rw [Raft.accept_getElem? hacc]
  split_ifs with hi
  · exact he
  · obtain ⟨m, rfl⟩ : ∃ m, i = args.prevLogIndex.toNat + 1 + m :=
      ⟨i - (args.prevLogIndex.toNat + 1), by omega⟩
    rw [Nat.add_sub_cancel_left, ← Raft.getElem?_of_take_eq htake (by omega), he]

/-- A conflict lies at or behind the place where log and request part. -/
lemma Conflict.le (htake : (rf.log.drop (args.prevLogIndex.toNat + 1)).take k = args.entries.take k)
    {j : ℕ} (h : Conflict rf args j) : args.prevLogIndex.toNat + 1 + k ≤ j := by
  obtain ⟨e, he, f, hf, hne⟩ := h
  obtain ⟨m, rfl, hm⟩ := AppendEntriesArgs.entry?_eq_some hf
  by_contra hlt
  rw [Raft.getElem?_of_take_eq htake (by omega), hm] at he
  exact hne (by rw [Option.some.inj he])

/-- **What an accepted request takes away.** Every entry that it takes away lies at or behind a
conflict exactly when log and request part at a conflict or at the end of the log. -/
lemma Raft.partsAtConflict_iff (hacc : rf.accepts args) :
    rf.PartsAtConflict args ↔ ∀ i e, rf.log[i]? = some e →
      ({ rf with currentTerm := args.term }.accept args).log[i]? ≠ some e →
        ∃ j ≤ i, Conflict rf args j := by
  constructor
  · rintro ⟨k, hk, htake, hend⟩ i e he hne
    have hi := Raft.le_of_removed hacc htake he hne
    rcases hend with hend | hconf
    · have := (List.getElem?_eq_some_iff.mp he).1
      rw [List.length_drop] at hend
      omega
    · exact ⟨_, hi, hconf⟩
  · intro h
    obtain ⟨k, hk, htake, hend⟩ :=
      exists_take_eq_take (rf.log.drop (args.prevLogIndex.toNat + 1)) args.entries
    refine ⟨k, hk, htake, hend.imp_right ?_⟩
    -- the first entry that is not in the request is taken away, so there is a conflict up to it
    rintro ⟨e, he, hne⟩
    rw [List.getElem?_drop] at he
    obtain ⟨j, hj, hconf⟩ := h _ e he (by
      rw [Raft.accept_getElem? hacc, if_neg (by omega), Nat.add_sub_cancel_left]
      exact hne)
    rwa [le_antisymm hj (hconf.le htake)] at hconf

/-- A request all of whose entries are in the log changes nothing, when the two part at a conflict
or at the end of the log: there is no conflict, and the log ends with the request. -/
lemma Raft.accept_log_of_isPrefix (hacc : rf.accepts args) (h : rf.PartsAtConflict args)
    (hpre : args.entries <+: rf.log.drop (args.prevLogIndex.toNat + 1)) :
    ({ rf with currentTerm := args.term }.accept args).log = rf.log := by
  obtain ⟨k, hk, htake, hend⟩ := h
  have hnat : (args.prevLogIndex + 1).toNat = args.prevLogIndex.toNat + 1 := by
    have := (Raft.accepts_iff.mp hacc).2.2.1
    omega
  have heq : args.entries = rf.log.drop (args.prevLogIndex.toNat + 1) := by
    rcases hend with rfl | ⟨e, he, f, hf, hne⟩
    · rw [List.take_length] at htake
      exact hpre.eq_of_length_le (htake ▸ List.length_take_le' _ _)
    · exfalso
      obtain ⟨m, hm, hent⟩ := AppendEntriesArgs.entry?_eq_some hf
      obtain rfl : k = m := by omega
      have hlog := getElem?_of_isPrefix hpre hent
      rw [List.getElem?_drop] at hlog
      exact hne (by rw [Option.some.inj (he.symm.trans hlog)])
  change rf.log.take (args.prevLogIndex + 1).toNat ++ args.entries = rf.log
  rw [heq, hnat, List.take_append_drop]

end PartsAtConflict

/-- What `AppendEntries` does to the log of a follower: nothing, or the request is accepted and the
log ends where the request does. -/
lemma Raft.appendEntries_log {rf rf' : Raft n C} {args : AppendEntriesArgs n C}
    {reply : AppendEntriesReply} (hs : rf.state = .follower)
    (h : rf.appendEntries args = some (rf', reply)) :
    rf'.state = .follower ∧
      (¬ rf.accepts args ∧ rf'.log = rf.log ∨
        rf.accepts args ∧ rf' = { rf with currentTerm := args.term }.accept args ∧
          (rf'.log.length : ℤ) = args.reach) := by
  unfold Raft.appendEntries at h
  rw [if_neg (not_not.mpr hs)] at h
  dsimp only at h
  split_ifs at h with ht hi
  · cases h
    refine ⟨hs, Or.inl ⟨fun hacc => ?_, rfl⟩⟩
    obtain ⟨-, -, h0, prev, hprev, -⟩ := Raft.accepts_iff.mp hacc
    have := (List.getElem?_eq_some_iff.mp hprev).1
    omega
  · rw [Option.map_eq_some_iff] at h
    obtain ⟨prev, hp, h⟩ := h
    obtain ⟨h0, hp⟩ := Slice.get?_eq_some_iff.mp hp
    split_ifs at h with hpt
    · cases h
      refine ⟨hs, Or.inl ⟨fun hacc => ?_, rfl⟩⟩
      obtain ⟨-, -, -, prev', hprev', hpt'⟩ := Raft.accepts_iff.mp hacc
      rw [Option.some.inj (hp.symm.trans hprev')] at hpt
      exact hpt hpt'
    · cases h
      exact ⟨hs, Or.inr ⟨Raft.accepts_iff.mpr ⟨hs, ht, h0, prev, hp, not_not.mp hpt⟩, rfl,
        accept_log_length { rf with currentTerm := args.term } h0 hp⟩⟩
  · cases h
    exact ⟨hs, Or.inl ⟨fun hacc => ht (Raft.accepts_iff.mp hacc).2.1, rfl⟩⟩

/-- The requests are handled one after the other. -/
def Raft.deliver (rf : Raft n C) : List (AppendEntriesArgs n C) → Option (Raft n C)
  | [] => some rf
  | args :: rest => (rf.appendEntries args).bind fun r => r.1.deliver rest

/-- The requests of the list that are accepted, each in the state that the ones before it leave. -/
def Raft.accepted (rf : Raft n C) :
    List (AppendEntriesArgs n C) → List (AppendEntriesArgs n C)
  | [] => []
  | args :: rest =>
      (if rf.accepts args then [args] else []) ++
        (rf.appendEntries args).elim [] fun r => r.1.accepted rest

/-- An accepted request is handled, and the log ends where the request does. -/
lemma Raft.deliver_singleton {rf : Raft n C} {args : AppendEntriesArgs n C}
    (hacc : rf.accepts args) :
    ∃ rf', rf.deliver [args] = some rf' ∧ rf'.state = .follower ∧
      (rf'.log.length : ℤ) = args.reach := by
  obtain ⟨hs, -, h0, prev, hprev, -⟩ := Raft.accepts_iff.mp hacc
  refine ⟨{ rf with currentTerm := args.term }.accept args, ?_, hs, ?_⟩
  · rw [Raft.deliver, Raft.appendEntries_of_accepts hacc, Option.bind_some, Raft.deliver]
  · exact accept_log_length { rf with currentTerm := args.term } h0 hprev

/-- Delivering one list of requests and then another. -/
lemma Raft.deliver_append {rf rf' : Raft n C} {before : List (AppendEntriesArgs n C)}
    (h : rf.deliver before = some rf') (reqs : List (AppendEntriesArgs n C)) :
    rf.deliver (before ++ reqs) = rf'.deliver reqs ∧
      rf.accepted (before ++ reqs) = rf.accepted before ++ rf'.accepted reqs := by
  induction before generalizing rf with
  | nil =>
      cases h
      exact ⟨rfl, rfl⟩
  | cons args rest ih =>
      obtain ⟨⟨rf₁, reply⟩, h₁, h⟩ := Option.bind_eq_some_iff.mp h
      obtain ⟨hd, ha⟩ := ih h
      refine ⟨?_, ?_⟩
      · rw [List.cons_append, Raft.deliver, h₁, Option.bind_some, hd]
      · rw [List.cons_append, Raft.accepted, Raft.accepted, h₁, Option.elim_some, Option.elim_some,
          ha, List.append_assoc]

/-- Where an accepted request stands in the list. -/
lemma Raft.exists_of_mem_accepted {rf : Raft n C} {reqs : List (AppendEntriesArgs n C)}
    {args : AppendEntriesArgs n C} (h : args ∈ rf.accepted reqs) :
    ∃ before after rf', reqs = before ++ args :: after ∧ rf.deliver before = some rf' ∧
      rf'.accepts args := by
  induction reqs generalizing rf with
  | nil => exact absurd h List.not_mem_nil
  | cons b rest ih =>
      rcases List.mem_append.mp h with h | h
      · split_ifs at h with hacc
        · obtain rfl := List.mem_singleton.mp h
          exact ⟨[], rest, rf, rfl, rfl, hacc⟩
        · exact absurd h List.not_mem_nil
      · cases hb : rf.appendEntries b with
        | none =>
            rw [hb] at h
            exact absurd h List.not_mem_nil
        | some r =>
            rw [hb, Option.elim_some] at h
            obtain ⟨before, after, rf', rfl, hd, hacc⟩ := ih h
            exact ⟨b :: before, after, rf', rfl, by rw [Raft.deliver, hb, Option.bind_some, hd],
              hacc⟩

/-- The log stays as long as `k`, when the requests that are accepted reach as far as that. -/
lemma Raft.le_deliver_log_length {rf rf' : Raft n C} {reqs : List (AppendEntriesArgs n C)} {k : ℤ}
    (hs : rf.state = .follower) (h : rf.deliver reqs = some rf') (hk : k ≤ (rf.log.length : ℤ))
    (hreqs : ∀ args ∈ rf.accepted reqs, k ≤ args.reach) : k ≤ (rf'.log.length : ℤ) := by
  induction reqs generalizing rf with
  | nil =>
      cases h
      exact hk
  | cons args rest ih =>
      obtain ⟨⟨rf₁, reply⟩, h₁, h⟩ := Option.bind_eq_some_iff.mp h
      have hrest : ∀ b ∈ rf₁.accepted rest, k ≤ b.reach := by
        intro b hb
        refine hreqs b (List.mem_append_right _ ?_)
        rw [h₁]
        exact hb
      obtain ⟨hs₁, ⟨-, hlog⟩ | ⟨hacc, -, hlen⟩⟩ := Raft.appendEntries_log hs h₁
      · exact ih hs₁ h (by rw [hlog]; exact hk) hrest
      · refine ih hs₁ h ?_ hrest
        rw [hlen]
        refine hreqs args (List.mem_append_left _ ?_)
        rw [if_pos hacc]
        exact List.mem_singleton_self _

/-- The log of `rf` is never shorter than it was after one of the requests was accepted, at any
moment while the requests are delivered. -/
def Raft.KeepsLength (rf : Raft n C) (reqs : List (AppendEntriesArgs n C)) : Prop :=
  ∀ before args between after rf₀ rf₁ rf₂, reqs = before ++ args :: (between ++ after) →
    rf.deliver before = some rf₀ → rf₀.accepts args → rf₀.deliver [args] = some rf₁ →
    rf₁.deliver between = some rf₂ → rf₁.log.length ≤ rf₂.log.length

/-- What is kept while all the requests are delivered is kept while the later ones are. -/
lemma Raft.KeepsLength.tail {rf rf' : Raft n C} {args : AppendEntriesArgs n C}
    {reply : AppendEntriesReply} {rest : List (AppendEntriesArgs n C)}
    (h : rf.KeepsLength (args :: rest)) (ha : rf.appendEntries args = some (rf', reply)) :
    rf'.KeepsLength rest := by
  intro before b between after rf₀ rf₁ rf₂ heq h₀
  refine h (args :: before) b between after rf₀ rf₁ rf₂ (by rw [heq]; rfl) ?_
  rw [Raft.deliver, ha, Option.bind_some, h₀]

/-- The log of a follower keeps its length exactly when the accepted requests are delivered in the
order of their ends. -/
lemma Raft.keepsLength_iff {rf : Raft n C} (hs : rf.state = .follower)
    (reqs : List (AppendEntriesArgs n C)) :
    rf.KeepsLength reqs ↔ (rf.accepted reqs).Pairwise fun a b => a.reach ≤ b.reach := by
  constructor
  · intro h
    induction reqs generalizing rf with
    | nil => exact List.Pairwise.nil
    | cons args rest ih =>
        unfold Raft.accepted
        cases ha : rf.appendEntries args with
        | none =>
            rw [Option.elim_none, List.append_nil]
            split_ifs
            · exact List.pairwise_singleton _ _
            · exact List.Pairwise.nil
        | some r =>
            obtain ⟨rf', reply⟩ := r
            rw [Option.elim_some]
            have hrest := ih (Raft.appendEntries_log hs ha).1 (h.tail ha)
            split_ifs with hacc
            · refine List.pairwise_cons.mpr ⟨fun b hb => ?_, hrest⟩
              obtain ⟨between, after, rf₁, rfl, hd, hb⟩ := Raft.exists_of_mem_accepted hb
              obtain ⟨rf₂, h₂, -, hlen₂⟩ := Raft.deliver_singleton hb
              obtain ⟨rf'', h₁, -, hlen⟩ := Raft.deliver_singleton hacc
              obtain rfl : rf' = rf'' := by
                rw [Raft.deliver, ha, Option.bind_some, Raft.deliver] at h₁
                exact Option.some.inj h₁
              have := h [] args (between ++ [b]) after rf rf' rf₂ (by simp) rfl hacc h₁
                ((Raft.deliver_append hd [b]).1.trans h₂)
              omega
            · exact hrest
  · intro hord before args between after rf₀ rf₁ rf₂ heq h₀ hacc h₁ h₂
    obtain ⟨rf', h₁', hs₁, hlen⟩ := Raft.deliver_singleton hacc
    obtain rfl : rf₁ = rf' := Option.some.inj (h₁.symm.trans h₁')
    rw [heq, (Raft.deliver_append h₀ _).2, ← List.singleton_append, (Raft.deliver_append h₁ _).2,
      (Raft.deliver_append h₂ _).2] at hord
    have hargs : args ∈ rf₀.accepted [args] := by
      unfold Raft.accepted
      rw [if_pos hacc]
      exact List.mem_append_left _ (List.mem_singleton_self _)
    have hafter : ∀ b ∈ rf₁.accepted between, args.reach ≤ b.reach := fun b hb =>
      (List.pairwise_append.mp (List.pairwise_append.mp hord).2.1).2.2 args hargs b
        (List.mem_append_left _ hb)
    have := Raft.le_deliver_log_length hs₁ h₂ hlen.ge hafter
    omega

/-- **When a late request does not erase newer entries.** A follower that accepts a request loses
entries only at or behind one of a different term in the request, and keeps its log if it has all
the entries of the request, exactly when log and request part at a conflict or at the end of the
log. While requests are delivered to a follower, its log never becomes shorter than it was after one
of them was accepted exactly when the accepted ones come in the order of their ends. -/
theorem lateRequest {rf : Raft n C} (hs : rf.state = .follower) :
    (∀ args, rf.accepts args → ∃ rf' reply, rf.appendEntries args = some (rf', reply) ∧
      (((∀ i e, rf.log[i]? = some e → rf'.log[i]? ≠ some e → ∃ j ≤ i, Conflict rf args j) ∧
        (args.entries <+: rf.log.drop (args.prevLogIndex.toNat + 1) → rf'.log = rf.log)) ↔
          rf.PartsAtConflict args)) ∧
    ∀ reqs, rf.KeepsLength reqs ↔ (rf.accepted reqs).Pairwise fun a b => a.reach ≤ b.reach := by
  refine ⟨fun args hacc => ?_, Raft.keepsLength_iff hs⟩
  refine ⟨_, _, Raft.appendEntries_of_accepts hacc, ?_⟩
  rw [← Raft.partsAtConflict_iff hacc]
  exact ⟨And.left, fun h => ⟨h, Raft.accept_log_of_isPrefix hacc h⟩⟩

/-- The end of a request is the end of the log it was built from. -/
lemma Raft.heartBeatArgs_reach {rf : Raft n C} {me index : Fin n} {args : AppendEntriesArgs n C}
    (h : rf.heartBeatArgs me index = some args) : args.reach = (rf.log.length : ℤ) := by
  obtain ⟨-, -, h0, ⟨prev, hprev, -⟩, hent, -⟩ := Raft.heartBeatArgs_eq_some h
  have hlt := (List.getElem?_eq_some_iff.mp hprev).1
  unfold AppendEntriesArgs.reach
  rw [hent, List.length_drop]
  omega

/-- The requests that a leader builds in one term, one after the other, reach further and further:
delivered in the order in which they were built, they are in the order of their ends. -/
theorem reach_mono [Inhabited C] {tr : Trace n C} {st x : Cluster n C}
    (h : (cluster n C).Run tr st) (hx : Visited tr st x) {s p p' : Fin n}
    {args args' : AppendEntriesArgs n C} (hb : (x.rafts s).heartBeatArgs s p = some args)
    (hb' : (st.rafts s).heartBeatArgs s p' = some args') (hs : (st.rafts s).state = .leader)
    (hT : args.term = args'.term) : args.reach ≤ args'.reach := by
  have hterm : (x.rafts s).currentTerm = (st.rafts s).currentTerm := by
    rw [← (Raft.heartBeatArgs_eq_some hb).1, ← (Raft.heartBeatArgs_eq_some hb').1, hT]
  have hpre := ((phase_of_visited h hx s).2 hterm (by simp [hs])).2
  rw [Raft.heartBeatArgs_reach hb, Raft.heartBeatArgs_reach hb']
  exact_mod_cast hpre.length_le

/-- What a leader of term 1 sends to a fresh follower after one `Start`. -/
def oneEntry : AppendEntriesArgs 2 ℕ := ⟨1, 0, 0, 0, [⟨1, 10⟩], 0, fun _ => 0⟩

/-- What it sends after another one. -/
def twoEntries : AppendEntriesArgs 2 ℕ := ⟨1, 0, 0, 0, [⟨1, 10⟩, ⟨1, 11⟩], 0, fun _ => 0⟩

/-- A fresh follower keeps its placeholder, and takes the two requests in the order in which they
were built without becoming shorter. -/
theorem lateRequest_inOrder :
    (∃ r ∈ (make 2 ℕ).appendEntries oneEntry, r.1.log[0]? = some ⟨0, 0⟩) ∧
      (make 2 ℕ).KeepsLength [oneEntry, twoEntries] := by
  have hs : (make 2 ℕ).state = .follower := rfl
  obtain ⟨hone, hmany⟩ := lateRequest hs
  obtain ⟨rf', reply, h, hiff⟩ := hone oneEntry (by decide)
  refine ⟨⟨(rf', reply), h, ?_⟩, (hmany _).mpr (by decide)⟩
  by_contra hne
  obtain ⟨j, hj, hconf⟩ := (hiff.mpr (by decide)).1 0 ⟨0, 0⟩ rfl hne
  exact absurd hconf ((by decide : ∀ j ≤ 0, ¬ Conflict (make 2 ℕ) oneEntry j) j hj)

/-- One leader, one term, two requests: the later one overtakes the earlier. When the earlier one
arrives, the follower has all its entries and loses the one behind them, without any conflict. -/
theorem lateRequest_fails : ∃ tr st, (cluster 2 ℕ).Run tr st ∧
    (st.rafts 1).state = .follower ∧ (st.rafts 1).log = [⟨0, 0⟩, ⟨1, 10⟩, ⟨1, 11⟩] ∧
    ∃ args ∈ st.beatRequest? 0 1, (st.rafts 1).accepts args ∧
      args.entries <+: (st.rafts 1).log.drop (args.prevLogIndex.toNat + 1) ∧
      (∀ j ≤ 2, ¬ Conflict (st.rafts 1) args j) ∧
      ∃ r ∈ (st.rafts 1).appendEntries args, r.1.log = [⟨0, 0⟩, ⟨1, 10⟩] :=
  (cluster 2 ℕ).exists_run_of_exec
    [.timer 0, .attemptEletion 0, .requestVote 0 1, .voteReply 0 1, .start 0 10, .heartBeat 0,
      .heartBeatArgs 0 1, .start 0 11, .heartBeat 0, .heartBeatArgs 1 1, .appendEntries 1 1]
    (fun _ st => (st.rafts 1).state = .follower ∧
      (st.rafts 1).log = [⟨0, 0⟩, ⟨1, 10⟩, ⟨1, 11⟩] ∧
      ∃ args ∈ st.beatRequest? 0 1, (st.rafts 1).accepts args ∧
        args.entries <+: (st.rafts 1).log.drop (args.prevLogIndex.toNat + 1) ∧
        (∀ j ≤ 2, ¬ Conflict (st.rafts 1) args j) ∧
        ∃ r ∈ (st.rafts 1).appendEntries args, r.1.log = [⟨0, 0⟩, ⟨1, 10⟩]) (by decide)

end GoLabs.Consensus
