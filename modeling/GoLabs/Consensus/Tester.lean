import GoLabs.Consensus.Safety

/-!
# The tester's view of a cluster

The tests start an `applier` for each peer, which reads what the peer sends on its `applyCh`, keeps
the commands in `logs` and compares them with what the other peers have sent. A difference, or a
message out of order, ends the test.

`tested` is the cluster together with its appliers: each of them takes the next message of its
channel at any moment. Here nothing is assumed about the run of the cluster.

* `tester_exact` — the appliers report a difference only if two peers have sent different commands
  for one index, and if they have reported none once all messages are read, then the sequences that
  the peers have sent extend one another. A message is never out of order.
* `tester_accepts` — they report nothing in the runs without the slips of `safetySlip`. `nCommitted`
  takes the lock anew for each peer, and the appliers go on in between; it never fails in these runs
  and counts the peers whose message for the index had been read when it got to them.
* `checkOneLeader_accepts` — `checkOneLeader` asks the peers one after the other, at different
  moments. Without the slips of `electionSlip` it never finds two leaders of a term.
-/

namespace GoLabs.Consensus

open GoLabs.Lib

variable {n : ℕ} {C : Type}

/-! ## The code -/

/-- What an applier reports before it ends the test. -/
inductive ApplyError (n : ℕ) (C : Type)
  /-- "commit index=%v server=%v %v != server=%v %v" -/
  | differs (index : ℤ) (i : Fin n) (command : C) (j : Fin n) (old : C)
  /-- "server %v apply out of order %v" -/
  | outOfOrder (i : Fin n) (index : ℤ)
  deriving DecidableEq

/-- What the appliers share.
Source: `config.go` `config` -/
structure Config (n : ℕ) (C : Type) where
  logs : Fin n → ℤ → Option C
  maxIndex : ℤ

/-- Source: `config.go` `make_config` -/
def Config.make (n : ℕ) (C : Type) : Config n C := ⟨fun _ _ => none, 0⟩

namespace Config

variable [DecidableEq C]

/-- One iteration of the loop of `checkLogs`. -/
def compare (cfg : Config n C) (i : Fin n) (m : ApplyMsg C) (err_msg : Option (ApplyError n C))
    (j : Fin n) : Option (ApplyError n C) :=
  match cfg.logs j m.commandIndex with
  | none => err_msg
  | some old =>
      if old ≠ m.command then some (.differs m.commandIndex i m.command j old) else err_msg

/-- Source: `config.go` `checkLogs` -/
def checkLogs (cfg : Config n C) (i : Fin n) (m : ApplyMsg C) :
    Config n C × Option (ApplyError n C) × Bool :=
  let err_msg := (List.finRange n).foldl (cfg.compare i m) none
  let prevok := (cfg.logs i (m.commandIndex - 1)).isSome
  ({ logs := Function.update cfg.logs i
        (Function.update (cfg.logs i) m.commandIndex (some m.command))
     maxIndex := if m.commandIndex > cfg.maxIndex then m.commandIndex else cfg.maxIndex },
    err_msg, prevok)

/-- What is done with a message.
Source: `config.go` `applier` -/
def applier (cfg : Config n C) (i : Fin n) (m : ApplyMsg C) :
    Config n C × Option (ApplyError n C) :=
  if m.commandValid = false then (cfg, none)
  else
    let (cfg, err_msg, prevok) := cfg.checkLogs i m
    (cfg, if m.commandIndex > 1 ∧ prevok = false then some (.outOfOrder i m.commandIndex)
      else err_msg)

/-- One iteration of `nCommitted`, which reads `logs[i]`. `none` if the commands are not the same,
which ends the test. -/
def countCommitted (cfg : Config n C) (index : ℤ) (x : ℕ × Option C) (i : Fin n) :
    Option (ℕ × Option C) :=
  match cfg.logs i index with
  | none => some x
  | some cmd1 =>
      if x.1 > 0 ∧ x.2 ≠ some cmd1 then none else some (x.1 + 1, some cmd1)

/-- How many peers have sent a message for the index, and its command. The lock is taken once for
each peer: `cfgs i` is what the appliers share when it is taken for `i`. The test of `applyErr` is
left out, since `log.Fatalf` ends the process before `applyErr` is ever set.
Source: `config.go` `nCommitted` -/
def nCommitted (cfgs : Fin n → Config n C) (index : ℤ) : Option (ℕ × Option C) :=
  (List.finRange n).foldlM (fun x i => (cfgs i).countCommitted index x i) (0, none)

end Config

/-- The state of a test. -/
structure Test (n : ℕ) (C : Type) where
  peers : Cluster n C
  /-- How many messages each applier has read. -/
  read : Fin n → ℕ
  cfg : Config n C
  /-- What has ended the test. -/
  error : Option (ApplyError n C)

/-- What happens next. -/
inductive TestAction (n : ℕ) (C : Type)
  | peer (a : Action n C)
  /-- The applier of `i` handles the next message. -/
  | applier (i : Fin n)

/-- One step. -/
def Test.step [DecidableEq C] (st : Test n C) : TestAction n C → Option (Test n C)
  | .peer a =>
      if st.error.isSome then none
      else (st.peers.step a).map fun peers => { st with peers := peers }
  | .applier i =>
      if st.error.isSome then none
      else
        (st.peers.applyCh i)[st.read i]?.map fun m =>
          let (cfg, err_msg) := st.cfg.applier i m
          { st with
            read := Function.update st.read i (st.read i + 1)
            cfg := cfg
            error := err_msg }

/-- A cluster of `n` peers and their appliers. -/
def tested (n : ℕ) (C : Type) [Inhabited C] [DecidableEq C] :
    System (Test n C) (TestAction n C) where
  init := ⟨Cluster.make n C, fun _ => 0, Config.make n C, none⟩
  step := Test.step

/-! ## The cluster in a test -/

/-- The steps of the peers. -/
def peerSteps (tr : List (Test n C × TestAction n C)) : Trace n C :=
  tr.filterMap fun q =>
    match q.2 with
    | .peer a => some (q.1.peers, a)
    | .applier _ => none

section Cluster

variable [Inhabited C] {tr : Trace n C} {st : Cluster n C}

/-- In every run, the messages of a peer are numbered from 1 on. -/
lemma numbered_of_run (h : (cluster n C).Run tr st) (s : Fin n) :
    (st.rafts s).lastApplied = (st.applyCh s).length ∧
      ∀ (k : ℕ) m, (st.applyCh s)[k]? = some m →
        m.commandValid = true ∧ m.commandIndex = (k : ℤ) + 1 := by
  induction h with
  | init => exact ⟨rfl, fun k m hm => by simp [cluster, Cluster.make] at hm⟩
  | step h hs ih =>
      obtain ⟨hlast, hnumbers⟩ := ih
      rcases (Step.of_cluster hs).applyCh_cases s with ⟨hch, hla⟩ | ⟨entry, -, -, -, hla, hch⟩
      · rw [hch, hla]
        exact ⟨hlast, hnumbers⟩
      · rw [hch, hla, List.length_append, List.length_singleton, hlast]
        refine ⟨by simp, fun k m hm => ?_⟩
        rcases lt_or_ge k (_ : List (ApplyMsg C)).length with hk | hk
        · rw [List.getElem?_append_left hk] at hm
          exact hnumbers k m hm
        · rw [List.getElem?_append_right hk, List.getElem?_singleton] at hm
          split_ifs at hm with hzero
          obtain rfl := Option.some.inj hm
          refine ⟨rfl, ?_⟩
          show (_ : ℤ) + 1 = _
          omega

end Cluster

/-! ## What the appliers know -/

section Appliers

variable {cfg : Config n C} {i : Fin n} {m : ApplyMsg C} {st : Test n C}

/-- What has been sent by `i` and read by its applier. -/
def Test.seen (st : Test n C) (i : Fin n) : List (ApplyMsg C) :=
  (st.peers.applyCh i).take (st.read i)

/-- The invariant of a test. -/
structure Test.Inv (st : Test n C) : Prop where
  read_le : ∀ i, st.read i ≤ (st.peers.applyCh i).length
  numbered : ∀ i (k : ℕ) m, (st.peers.applyCh i)[k]? = some m →
    m.commandValid = true ∧ m.commandIndex = (k : ℤ) + 1
  /-- `logs` has the commands of the messages that have been read. -/
  logs : ∀ i (k : ℕ), st.cfg.logs i ((k : ℤ) + 1) = ((st.seen i)[k]?).map ApplyMsg.command
  logs_none : ∀ i index, index ≤ 0 → st.cfg.logs i index = none
  agree : st.error = none → ∀ i j index c d, st.cfg.logs i index = some c →
    st.cfg.logs j index = some d → c = d
  error : ∀ e, st.error = some e → ∃ index i c j old, e = .differs index i c j old ∧ i ≠ j ∧
    ⟨true, c, index⟩ ∈ st.peers.applyCh i ∧ ⟨true, old, index⟩ ∈ st.peers.applyCh j ∧ c ≠ old

/-- What the applier of `i` is about to read. -/
lemma Test.Inv.seen_next (h : st.Inv) (hm : (st.peers.applyCh i)[st.read i]? = some m) :
    (st.peers.applyCh i).take (st.read i + 1) = st.seen i ++ [m] ∧
      (st.seen i).length = st.read i := by
  unfold Test.seen
  rw [List.take_add_one, hm, List.length_take, min_eq_left (h.read_le i)]
  exact ⟨rfl, rfl⟩

/-- The number of a message that has been read. -/
lemma Test.Inv.numbered_seen (h : st.Inv) {k : ℕ} (hm : (st.seen i)[k]? = some m) :
    m.commandValid = true ∧ m.commandIndex = (k : ℤ) + 1 := by
  unfold Test.seen at hm
  rw [List.getElem?_take] at hm
  split_ifs at hm
  exact h.numbered i k m hm

/-- **What `logs` has** are the messages that have been read. -/
lemma Test.Inv.logs_iff (h : st.Inv) {index : ℤ} {c : C} :
    st.cfg.logs i index = some c ↔ ⟨true, c, index⟩ ∈ st.seen i := by
  constructor
  · intro hc
    have hpos : 0 < index := by
      by_contra hle
      rw [h.logs_none i index (not_lt.mp hle)] at hc
      cases hc
    obtain ⟨k, rfl⟩ : ∃ k : ℕ, index = (k : ℤ) + 1 := ⟨(index - 1).toNat, by omega⟩
    rw [h.logs, Option.map_eq_some_iff] at hc
    obtain ⟨m, hm, rfl⟩ := hc
    obtain ⟨hvalid, hindex⟩ := h.numbered_seen hm
    rw [← hvalid, ← hindex]
    exact List.mem_of_getElem? hm
  · intro hmem
    obtain ⟨k, hk⟩ := List.getElem?_of_mem hmem
    have hindex : index = (k : ℤ) + 1 := (h.numbered_seen hk).2
    rw [hindex, h.logs, hk]
    rfl

/-- A message that `logs` has was sent. -/
lemma Test.Inv.sent (h : st.Inv) {index : ℤ} {c : C} (hc : st.cfg.logs i index = some c) :
    ⟨true, c, index⟩ ∈ st.peers.applyCh i := List.mem_of_mem_take (h.logs_iff.mp hc)

/-- A message that has been read is in `logs`. -/
lemma Test.Inv.logs_of_mem (h : st.Inv) (hm : m ∈ st.seen i) :
    st.cfg.logs i m.commandIndex = some m.command := by
  obtain ⟨k, hk⟩ := List.getElem?_of_mem hm
  rw [h.logs_iff, ← (h.numbered_seen hk).1]
  exact hm

/-- The applier of `i` has read nothing before for the index of the next message. -/
lemma Test.Inv.logs_eq_none (h : st.Inv) (hm : (st.peers.applyCh i)[st.read i]? = some m) :
    st.cfg.logs i m.commandIndex = none := by
  have hlen := (h.seen_next hm).2
  rw [(h.numbered i _ m hm).2, h.logs, List.getElem?_eq_none (by omega)]
  rfl

variable [DecidableEq C]

/-- The loop of `checkLogs` finds a peer with another command if there is one. -/
lemma Config.foldl_compare (cfg : Config n C) (i : Fin n) (m : ApplyMsg C) (js : List (Fin n))
    (err_msg : Option (ApplyError n C)) :
    (js.foldl (cfg.compare i m) err_msg = none ↔ err_msg = none ∧
      ∀ j ∈ js, ∀ old, cfg.logs j m.commandIndex = some old → old = m.command) ∧
    ∀ e, js.foldl (cfg.compare i m) err_msg = some e → err_msg = some e ∨
      ∃ j old, cfg.logs j m.commandIndex = some old ∧ old ≠ m.command ∧
        e = .differs m.commandIndex i m.command j old := by
  induction js generalizing err_msg with
  | nil => exact ⟨by simp, fun e he => Or.inl he⟩
  | cons j js ih =>
      obtain ⟨hnone, hsome⟩ := ih (cfg.compare i m err_msg j)
      -- what the first iteration leaves
      have hfirst : (∀ old, cfg.logs j m.commandIndex = some old → old = m.command) ∧
            cfg.compare i m err_msg j = err_msg ∨
          ∃ old, cfg.logs j m.commandIndex = some old ∧ old ≠ m.command ∧
            cfg.compare i m err_msg j = some (.differs m.commandIndex i m.command j old) := by
        unfold Config.compare
        rcases hlog : cfg.logs j m.commandIndex with _ | old
        · exact Or.inl ⟨by simp, rfl⟩
        · by_cases hold : old = m.command
          · exact Or.inl ⟨by simp [hold], by simp [hold]⟩
          · exact Or.inr ⟨old, rfl, hold, by simp [hold]⟩
      rw [List.foldl_cons, hnone, List.forall_mem_cons]
      rcases hfirst with ⟨hsame, heq⟩ | ⟨old, hold, hne, heq⟩
      · rw [heq] at hsome ⊢
        exact ⟨and_congr_right fun _ => ⟨fun h => ⟨hsame, h⟩, fun h => h.2⟩, hsome⟩
      · rw [heq] at hsome ⊢
        refine ⟨iff_of_false (by simp) fun h => hne (h.2.1 old hold), fun e he => Or.inr ?_⟩
        rcases hsome e he with heq' | hex
        · exact ⟨j, old, hold, hne, (Option.some.inj heq').symm⟩
        · exact hex

/-- **A message is in order**: its index follows the last one that has been read. -/
lemma Test.Inv.applier_eq (h : st.Inv) (hm : (st.peers.applyCh i)[st.read i]? = some m) :
    st.cfg.applier i m = ((st.cfg.checkLogs i m).1,
      (List.finRange n).foldl (st.cfg.compare i m) none) := by
  obtain ⟨hvalid, hindex⟩ := h.numbered i _ m hm
  have hprev : ¬ (m.commandIndex > 1 ∧ (st.cfg.logs i (m.commandIndex - 1)).isSome = false) := by
    rintro ⟨hgt, hnone⟩
    obtain ⟨k, hk⟩ : ∃ k, st.read i = k + 1 := ⟨st.read i - 1, by omega⟩
    have hidx : m.commandIndex - 1 = (k : ℤ) + 1 := by omega
    have hlen := (h.seen_next hm).2
    rw [hidx, h.logs, List.getElem?_eq_getElem (by omega)] at hnone
    cases hnone
  unfold Config.applier
  rw [if_neg (by simp [hvalid])]
  show (_, ite _ _ _) = _
  rw [if_neg hprev]
  rfl

/-- `checkLogs` puts the command of the message into `logs`, and changes nothing else there. -/
lemma Config.checkLogs_logs (cfg : Config n C) (i j : Fin n) (m : ApplyMsg C) (index : ℤ) :
    (cfg.checkLogs i m).1.logs j index =
      if j = i ∧ index = m.commandIndex then some m.command else cfg.logs j index := by
  show Function.update cfg.logs i _ j index = _
  by_cases hj : j = i
  · subst hj
    rw [Function.update_self]
    by_cases hidx : index = m.commandIndex
    · rw [hidx, Function.update_self]
      simp
    · rw [Function.update_of_ne hidx]
      simp [hidx]
  · rw [Function.update_of_ne hj]
    simp [hj]

/-- After a message has been read, `logs` has its command as well. -/
lemma Test.Inv.logs_next (h : st.Inv) (hm : (st.peers.applyCh i)[st.read i]? = some m) (j : Fin n)
    (k : ℕ) : (st.cfg.checkLogs i m).1.logs j ((k : ℤ) + 1) =
      (((st.peers.applyCh j).take (Function.update st.read i (st.read i + 1) j))[k]?).map
        ApplyMsg.command := by
  obtain ⟨-, hindex⟩ := h.numbered i _ m hm
  obtain ⟨hnext, hlen⟩ := h.seen_next hm
  rw [Config.checkLogs_logs]
  by_cases hj : j = i
  · subst hj
    rw [Function.update_self, hnext, hindex]
    by_cases hk : k = st.read j
    · subst hk
      rw [if_pos ⟨rfl, rfl⟩, List.getElem?_append_right (by omega), hlen, Nat.sub_self]
      rfl
    · rw [if_neg (by rintro ⟨-, heq⟩; omega), h.logs]
      rcases lt_or_gt_of_ne hk with hk | hk
      · rw [List.getElem?_append_left (by omega)]
      · rw [List.getElem?_eq_none (by omega), List.getElem?_eq_none (by simp; omega)]
  · rw [if_neg (by simp [hj]), Function.update_of_ne hj, h.logs]
    rfl

/-- **Reading a message keeps the invariant.** -/
lemma Test.Inv.applier (h : st.Inv) (hnone : st.error = none)
    (hm : (st.peers.applyCh i)[st.read i]? = some m) :
    Test.Inv { st with
      read := Function.update st.read i (st.read i + 1)
      cfg := (st.cfg.applier i m).1
      error := (st.cfg.applier i m).2 } := by
  obtain ⟨hvalid, hindex⟩ := h.numbered i _ m hm
  have hlt : st.read i < (st.peers.applyCh i).length := (List.getElem?_eq_some_iff.mp hm).1
  have hmem : ⟨true, m.command, m.commandIndex⟩ ∈ st.peers.applyCh i := by
    rw [← hvalid]
    exact List.mem_of_getElem? hm
  obtain ⟨hcompare, hdiffers⟩ := st.cfg.foldl_compare i m (List.finRange n) none
  rw [h.applier_eq hm]
  refine ⟨fun j => ?_, h.numbered, h.logs_next hm, fun j index hle => ?_, ?_, ?_⟩
  · show Function.update st.read i (st.read i + 1) j ≤ _
    by_cases hj : j = i
    · subst hj
      rw [Function.update_self]
      exact hlt
    · rw [Function.update_of_ne hj]
      exact h.read_le j
  · show (st.cfg.checkLogs i m).1.logs j index = none
    rw [Config.checkLogs_logs, if_neg (by rintro ⟨-, rfl⟩; omega), h.logs_none j index hle]
  · intro herror j k index c d hc hd
    have hsame := (hcompare.mp herror).2
    have hc : (st.cfg.checkLogs i m).1.logs j index = some c := hc
    have hd : (st.cfg.checkLogs i m).1.logs k index = some d := hd
    rw [Config.checkLogs_logs] at hc hd
    -- a command that was there before is that of the message, if they have the same index
    split_ifs at hc hd with hj hk hk
    · rw [← Option.some.inj hc, ← Option.some.inj hd]
    · rw [hj.2] at hd
      rw [← Option.some.inj hc, hsame k (List.mem_finRange k) d hd]
    · rw [hk.2] at hc
      rw [← Option.some.inj hd, hsame j (List.mem_finRange j) c hc]
    · exact h.agree hnone j k index c d hc hd
  · intro e he
    rcases hdiffers e he with hfalse | ⟨j, old, hold, hne, rfl⟩
    · cases hfalse
    · refine ⟨m.commandIndex, i, m.command, j, old, rfl, ?_, hmem, h.sent hold, Ne.symm hne⟩
      rintro rfl
      rw [h.logs_eq_none hm] at hold
      cases hold

/-- **The loop of `nCommitted`** counts the peers, if what it reads for them is the same command. -/
lemma Config.foldlM_countCommitted {cfgs : Fin n → Config n C} {index : ℤ}
    (hagree : ∀ i j c d, (cfgs i).logs i index = some c → (cfgs j).logs j index = some d → c = d)
    (js : List (Fin n)) (x : ℕ × Option C)
    (hx : 0 < x.1 → ∃ j c, (cfgs j).logs j index = some c ∧ x.2 = some c) :
    ∃ y, js.foldlM (fun x i => (cfgs i).countCommitted index x i) x = some y ∧
      y.1 = x.1 + (js.filter fun j => ((cfgs j).logs j index).isSome).length ∧
      (0 < y.1 → ∃ j c, (cfgs j).logs j index = some c ∧ y.2 = some c) := by
  induction js generalizing x with
  | nil => exact ⟨x, rfl, rfl, hx⟩
  | cons j js ih =>
      rcases hlog : (cfgs j).logs j index with _ | c
      · have hstep : (cfgs j).countCommitted index x j = some x := by
          unfold Config.countCommitted
          rw [hlog]
        obtain ⟨y, hy, hcount, hcmd⟩ := ih x hx
        refine ⟨y, ?_, ?_, hcmd⟩
        · rw [List.foldlM_cons, hstep]
          exact hy
        · rw [hcount, List.filter_cons_of_neg (by simp [hlog])]
      · have hsame : ¬ (x.1 > 0 ∧ x.2 ≠ some c) := by
          rintro ⟨hpos, hne⟩
          obtain ⟨k, d, hd, hx⟩ := hx hpos
          rw [hagree k j d c hd hlog] at hx
          exact hne hx
        have hstep : (cfgs j).countCommitted index x j = some (x.1 + 1, some c) := by
          unfold Config.countCommitted
          rw [hlog]
          exact if_neg hsame
        obtain ⟨y, hy, hcount, hcmd⟩ := ih (x.1 + 1, some c) fun _ => ⟨j, c, hlog, rfl⟩
        refine ⟨y, ?_, ?_, hcmd⟩
        · rw [List.foldlM_cons, hstep]
          exact hy
        · rw [hcount, List.filter_cons_of_pos (by simp [hlog]), List.length_cons]
          omega

/-- `nCommitted` counts the peers whose message for the index has been read when it gets to them, if
their commands are the same. -/
lemma Config.nCommitted_eq {sts : Fin n → Test n C} (h : ∀ i, (sts i).Inv) {index : ℤ}
    (hagree : ∀ i j c d, (sts i).cfg.logs i index = some c → (sts j).cfg.logs j index = some d →
      c = d) :
    ∃ count cmd, Config.nCommitted (fun i => (sts i).cfg) index = some (count, cmd) ∧
      count = (Finset.univ.filter fun i => ∃ m ∈ (sts i).seen i, m.commandIndex = index).card ∧
      ∀ i, ∀ m ∈ (sts i).seen i, m.commandIndex = index → cmd = some m.command := by
  obtain ⟨⟨count, cmd⟩, hy, hcount, hcmd⟩ :=
    Config.foldlM_countCommitted hagree (List.finRange n) (0, none)
      fun hpos => absurd hpos (lt_irrefl 0)
  replace hcount : count = 0 + _ := hcount
  rw [zero_add] at hcount
  refine ⟨count, cmd, hy, ?_, fun i m hm hindex => ?_⟩
  · rw [hcount, ← List.toFinset_card_of_nodup ((List.nodup_finRange n).filter _)]
    congr 1
    ext i
    simp only [List.mem_toFinset, List.mem_filter, List.mem_finRange, true_and,
      Finset.mem_filter, Finset.mem_univ, Option.isSome_iff_exists]
    constructor
    · rintro ⟨c, hc⟩
      exact ⟨_, (h i).logs_iff.mp hc, rfl⟩
    · rintro ⟨m, hm, rfl⟩
      exact ⟨_, (h i).logs_of_mem hm⟩
  · subst hindex
    have hlog := (h i).logs_of_mem hm
    have hpos : 0 < count := by
      rw [hcount]
      refine List.length_pos_of_mem (a := i) (List.mem_filter.mpr ⟨List.mem_finRange i, ?_⟩)
      rw [hlog]
      rfl
    obtain ⟨j, c, hc, hcmd⟩ := hcmd hpos
    replace hcmd : cmd = some c := hcmd
    rw [hcmd, hagree j i c m.command hc hlog]

end Appliers

/-- Of two sequences that do not differ where both are defined, one extends the other. -/
lemma prefix_or_prefix {α : Type} {as bs : List α}
    (h : ∀ (k : ℕ) a b, as[k]? = some a → bs[k]? = some b → a = b) : as <+: bs ∨ bs <+: as := by
  induction as generalizing bs with
  | nil => exact Or.inl List.nil_prefix
  | cons a as ih =>
      rcases bs with _ | ⟨b, bs⟩
      · exact Or.inr List.nil_prefix
      · obtain rfl : a = b := h 0 a b rfl rfl
        have htail := ih fun k a b ha hb => h (k + 1) a b ha hb
        rwa [List.prefix_cons_inj, List.prefix_cons_inj]

/-! ## Runs -/

section Runs

variable [Inhabited C] [DecidableEq C] {tr : List (Test n C × TestAction n C)} {st : Test n C}

/-- What happens in a step of a test. -/
lemma Test.step_cases {st' : Test n C} {a : TestAction n C}
    (h : (tested n C).step st a = some st') : st.error = none ∧
      ((∃ b y, a = .peer b ∧ st.peers.step b = some y ∧ st' = { st with peers := y }) ∨
        ∃ i m, a = .applier i ∧ (st.peers.applyCh i)[st.read i]? = some m ∧
          st' = { st with
            read := Function.update st.read i (st.read i + 1)
            cfg := (st.cfg.applier i m).1
            error := (st.cfg.applier i m).2 }) := by
  have hstep : Test.step st a = some st' := h
  rcases herror : st.error with _ | e
  · refine ⟨rfl, ?_⟩
    rcases a with b | i
    · simp only [Test.step, herror, Option.isSome_none, Bool.false_eq_true, if_false,
        Option.map_eq_some_iff] at hstep
      obtain ⟨y, hy, rfl⟩ := hstep
      exact Or.inl ⟨b, y, rfl, hy, rfl⟩
    · simp only [Test.step, herror, Option.isSome_none, Bool.false_eq_true, if_false,
        Option.map_eq_some_iff] at hstep
      obtain ⟨m, hm, rfl⟩ := hstep
      exact Or.inr ⟨i, m, rfl, hm, rfl⟩
  · rcases a with b | i
    · simp [Test.step, herror] at hstep
    · simp [Test.step, herror] at hstep

/-- **The steps of the peers are a run of the cluster.** -/
lemma cluster_of_run (h : (tested n C).Run tr st) :
    (cluster n C).Run (peerSteps tr) st.peers := by
  induction h with
  | init => exact System.Run.init
  | step h hs ih =>
      obtain ⟨-, ⟨b, y, rfl, hy, rfl⟩ | ⟨i, m, rfl, -, rfl⟩⟩ := Test.step_cases hs
      · exact ih.step hy
      · exact ih

omit [DecidableEq C] in
/-- A step of the peers keeps the invariant. -/
lemma Test.Inv.peer {tr : Trace n C} {b : Action n C} {y : Cluster n C} (h : st.Inv)
    (hnone : st.error = none) (hrun : (cluster n C).Run tr st.peers)
    (hstep : st.peers.step b = some y) : Test.Inv { st with peers := y } := by
  -- the messages that were there before are still there
  have hch : ∀ i, st.peers.applyCh i <+: y.applyCh i := by
    have hs : (cluster n C).step st.peers b = some y := hstep
    exact (Step.of_cluster hs).applyCh_isPrefix
  have hseen : ∀ i, Test.seen { st with peers := y } i = st.seen i := by
    intro i
    obtain ⟨ms, hms⟩ := hch i
    show (y.applyCh i).take (st.read i) = (st.peers.applyCh i).take (st.read i)
    rw [← hms, List.take_append_of_le_length (h.read_le i)]
  have hrun' : (cluster n C).Run ((st.peers, b) :: tr) y := hrun.step hstep
  refine ⟨fun i => (h.read_le i).trans (hch i).length_le,
    fun i => (numbered_of_run hrun' i).2, fun i k => ?_, h.logs_none, h.agree, fun e he => ?_⟩
  · rw [hseen]
    exact h.logs i k
  · have he : st.error = some e := he
    rw [hnone] at he
    cases he

/-- **Every run keeps the invariant.** -/
lemma Test.Inv.of_run (h : (tested n C).Run tr st) : st.Inv := by
  induction h with
  | init =>
      refine ⟨fun i => le_rfl, fun i k m hm => ?_, fun i k => ?_, fun i index _ => rfl,
        fun _ i j index c d hc => ?_, fun e he => ?_⟩
      · simp [tested, Cluster.make] at hm
      · simp [tested, Config.make, Test.seen, Cluster.make]
      · cases hc
      · cases he
  | step h hs ih =>
      obtain ⟨hnone, ⟨b, y, rfl, hy, rfl⟩ | ⟨i, m, rfl, hm, rfl⟩⟩ := Test.step_cases hs
      · exact ih.peer hnone (cluster_of_run h) hy
      · exact ih.applier hnone hm

/-- **The appliers report exactly the disagreements.** What they report is that two peers have sent
different commands for one index. If nothing has been reported when all messages have been read,
then of the sequences sent by any two peers one extends the other. -/
theorem tester_exact (h : (tested n C).Run tr st) :
    (∀ e, st.error = some e → ∃ index i c j old, e = .differs index i c j old ∧ i ≠ j ∧
      ⟨true, c, index⟩ ∈ st.peers.applyCh i ∧ ⟨true, old, index⟩ ∈ st.peers.applyCh j ∧
      c ≠ old) ∧
    (st.error = none → (∀ i, st.read i = (st.peers.applyCh i).length) →
      ∀ i j, st.peers.applyCh i <+: st.peers.applyCh j ∨
        st.peers.applyCh j <+: st.peers.applyCh i) := by
  have hinv := Test.Inv.of_run h
  refine ⟨hinv.error, fun hnone hread i j => ?_⟩
  have hseen : ∀ i, st.seen i = st.peers.applyCh i := fun i => by
    unfold Test.seen
    rw [hread, List.take_length]
  -- messages with the same number are the same
  have hsame : ∀ (k : ℕ) m m', (st.peers.applyCh i)[k]? = some m →
      (st.peers.applyCh j)[k]? = some m' → m = m' := by
    intro k m m' hm hm'
    obtain ⟨hvalid, hindex⟩ := hinv.numbered i k m hm
    obtain ⟨hvalid', hindex'⟩ := hinv.numbered j k m' hm'
    have hlog : st.cfg.logs i ((k : ℤ) + 1) = some m.command := by
      rw [hinv.logs, hseen, hm]
      rfl
    have hlog' : st.cfg.logs j ((k : ℤ) + 1) = some m'.command := by
      rw [hinv.logs, hseen, hm']
      rfl
    have hcommand := hinv.agree hnone i j _ _ _ hlog hlog'
    calc m = ⟨m.commandValid, m.command, m.commandIndex⟩ := rfl
      _ = ⟨m'.commandValid, m'.command, m'.commandIndex⟩ := by
        rw [hvalid, hvalid', hindex, hindex', hcommand]
      _ = m' := rfl
  exact prefix_or_prefix hsame

/-- Two peers lead one term, a third one takes an entry of each, and each commits its own: the
second applier reports it. -/
theorem tester_exact_run : ∃ tr st, (tested 3 ℕ).Run tr st ∧
    st.error = some (.differs 1 1 20 0 10) ∧ ∃ i j c old, i ≠ j ∧ c ≠ old ∧
      ⟨true, c, 1⟩ ∈ st.peers.applyCh i ∧ ⟨true, old, 1⟩ ∈ st.peers.applyCh j := by
  obtain ⟨tr, st, h, herror⟩ := (tested 3 ℕ).exists_run_of_exec
    (List.map TestAction.peer
      [.timer 0, .attemptEletion 0, .requestVote 0 1, .voteReply 0 1,
        .timer 1, .attemptEletion 1, .requestVote 1 0, .requestVote 1 2, .voteReply 1 2,
        .start 0 10, .start 1 20,
        .heartBeat 0, .heartBeatArgs 0 2, .appendEntries 0 2, .heartBeatReply 0 2, .apply 0,
        .heartBeat 1, .heartBeatArgs 1 2, .appendEntries 1 2, .heartBeatReply 1 2, .apply 1] ++
      [.applier 0, .applier 1])
    (fun _ st => st.error = some (.differs 1 1 20 0 10)) (by decide)
  obtain ⟨index, i, c, j, old, heq, hij, hc, hold, hne⟩ := (tester_exact h).1 _ herror
  obtain ⟨rfl, -⟩ := ApplyError.differs.inj heq
  exact ⟨tr, st, h, herror, i, j, c, old, hij, hne, hc, hold⟩

/-- The appliers report nothing in the runs without slips. -/
lemma error_eq_none (h : (tested n C).Run tr st)
    (hD : Avoids (fun x a => safetySlip x a) (peerSteps tr)) : st.error = none := by
  have hinv := Test.Inv.of_run h
  have hrun := cluster_of_run h
  by_contra hsome
  obtain ⟨e, he⟩ := Option.ne_none_iff_exists'.mp hsome
  obtain ⟨index, i, c, j, old, -, -, hc, hold, hne⟩ := hinv.error e he
  obtain ⟨k, hk⟩ := List.getElem?_of_mem hc
  obtain ⟨k', hk'⟩ := List.getElem?_of_mem hold
  have hindex : index = (k : ℤ) + 1 := (hinv.numbered i k _ hk).2
  have hindex' : index = (k' : ℤ) + 1 := (hinv.numbered j k' _ hk').2
  obtain rfl : k = k' := by omega
  -- both are the message of one sequence with this number
  obtain ⟨T, L, hL, hpre⟩ := delivered_isPrefix hrun hD i
  obtain ⟨T', L', hL', hpre'⟩ := delivered_isPrefix hrun hD j
  have hget := getElem?_of_isPrefix hpre hk
  have hget' := getElem?_of_isPrefix hpre' hk'
  rcases hL.comparable hrun hD hL' with hLL | hLL
  · rw [getElem?_of_isPrefix (deliveries_isPrefix hLL) hget] at hget'
    exact hne (congrArg ApplyMsg.command (Option.some.inj hget'))
  · rw [getElem?_of_isPrefix (deliveries_isPrefix hLL) hget'] at hget
    exact hne (congrArg ApplyMsg.command (Option.some.inj hget)).symm

/-- `y` is a later state of the channel of `i` and its applier than `x`. -/
def Test.Later (i : Fin n) (x y : Test n C) : Prop :=
  x.peers.applyCh i <+: y.peers.applyCh i ∧ x.read i ≤ y.read i

/-- A step takes nothing from a channel, and its applier does not go back. -/
lemma Test.later_of_step {x y : Test n C} {a : TestAction n C}
    (hs : (tested n C).step x a = some y) (i : Fin n) : Test.Later i x y := by
  obtain ⟨-, ⟨b, z, rfl, hz, rfl⟩ | ⟨j, m, rfl, -, rfl⟩⟩ := Test.step_cases hs
  · have hz : (cluster n C).step x.peers b = some z := hz
    exact ⟨(Step.of_cluster hz).applyCh_isPrefix i, le_rfl⟩
  · refine ⟨List.prefix_rfl, ?_⟩
    show x.read i ≤ Function.update x.read j (x.read j + 1) i
    by_cases hij : i = j
    · subst hij
      rw [Function.update_self]
      omega
    · rw [Function.update_of_ne hij]

/-- What has been read stays read: the messages read at a moment of the run are the first ones of
those that have been read in the end. -/
lemma seen_isPrefix (h : (tested n C).Run tr st) {x : Test n C} (hx : Visited tr st x)
    (i : Fin n) : x.seen i <+: st.seen i := by
  have htrans : ∀ {x y z : Test n C}, Test.Later i x y → Test.Later i y z → Test.Later i x z :=
    fun hxy hyz => ⟨hxy.1.trans hyz.1, hxy.2.trans hyz.2⟩
  obtain ⟨hch, hread⟩ := h.rel_of_visited (R := Test.Later i)
    (fun _ => ⟨List.prefix_rfl, le_rfl⟩) htrans (fun hs => Test.later_of_step hs i) hx
  exact (hch.take _).trans (List.take_prefix_take_left hread)

/-- **The tests accept the runs without slips.** If no step of the peers is one of those that let
them deliver different commands, then the appliers report nothing. And `nCommitted`, which reads the
messages of each peer at another moment of the run, never finds different commands: it counts the
peers whose message for the index had been read when it got to them, and returns their command. -/
theorem tester_accepts (h : (tested n C).Run tr st)
    (hD : Avoids (fun x a => safetySlip x a) (peerSteps tr)) :
    st.error = none ∧ ∀ (sts : Fin n → Test n C) (index : ℤ), (∀ i, Visited tr st (sts i)) →
      ∃ count cmd, Config.nCommitted (fun i => (sts i).cfg) index = some (count, cmd) ∧
        count = (Finset.univ.filter fun i => ∃ m ∈ (sts i).seen i, m.commandIndex = index).card ∧
        ∀ i, ∀ m ∈ (sts i).seen i, m.commandIndex = index → cmd = some m.command := by
  have hinv := Test.Inv.of_run h
  have hnone := error_eq_none h hD
  refine ⟨hnone, fun sts index hvis => ?_⟩
  have hinvs : ∀ i, (sts i).Inv := fun i => by
    obtain ⟨tr₂, -, hrun⟩ := h.of_visited (hvis i)
    exact Test.Inv.of_run hrun
  -- what was read at different moments has all been read in the end
  have hlast : ∀ i c, (sts i).cfg.logs i index = some c → st.cfg.logs i index = some c :=
    fun i c hc => hinv.logs_iff.mpr
      ((seen_isPrefix h (hvis i) i).subset ((hinvs i).logs_iff.mp hc))
  exact Config.nCommitted_eq hinvs fun i j c d hc hd =>
    hinv.agree hnone i j index c d (hlast i c hc) (hlast j d hd)

/-- Two peers have sent a message for the first index. `nCommitted` reads the log of 0 before and
that of 1 after the applier of 0 has read its message. -/
theorem tester_accepts_run : ∃ tr st x, (tested 3 ℕ).Run tr st ∧ Visited tr st x ∧
    Avoids (fun x a => safetySlip x a) (peerSteps tr) ∧ st.error = none ∧
    (x.seen 0).map ApplyMsg.command = [] ∧ (st.seen 0).map ApplyMsg.command = [10] ∧
    ∃ count, Config.nCommitted (fun i => if i = 0 then x.cfg else st.cfg) 1 =
      some (count, some 10) := by
  obtain ⟨tr, st, h, hD, ⟨x, a⟩, hx, hx0, h0, h1⟩ := (tested 3 ℕ).exists_run_of_exec
    (List.map TestAction.peer
      [.timer 0, .attemptEletion 0, .requestVote 0 1, .voteReply 0 1, .start 0 10,
        .heartBeat 0, .heartBeatArgs 0 1, .appendEntries 0 1, .heartBeatReply 0 1, .apply 0,
        .heartBeat 0, .heartBeatArgs 1 1, .appendEntries 1 1, .apply 1] ++
      [.applier 1, .applier 0])
    (fun tr st => Avoids (fun x a => safetySlip x a) (peerSteps tr) ∧ ∃ q ∈ tr.head?,
      (q.1.seen 0).map ApplyMsg.command = [] ∧ (st.seen 0).map ApplyMsg.command = [10] ∧
      (⟨true, 10, 1⟩ : ApplyMsg ℕ) ∈ st.seen 1)
    (by decide)
  have hvis : Visited tr st x := Or.inr ⟨a, List.mem_of_mem_head? hx⟩
  obtain ⟨hnone, hcount⟩ := tester_accepts h hD
  obtain ⟨count, cmd, hn, -, hcmd⟩ := hcount (fun i => if i = 0 then x else st) 1 fun i => by
    by_cases hi : i = 0
    · rw [if_pos hi]
      exact hvis
    · rw [if_neg hi]
      exact Or.inl rfl
  have hten : cmd = some 10 := hcmd 1 _ h1 rfl
  refine ⟨tr, st, x, h, hvis, hD, hnone, hx0, h0, count, ?_⟩
  rw [← hten, ← hn]
  congr 1
  funext i
  split_ifs
  · rfl
  · rfl

end Runs

/-! ## `checkOneLeader` -/

/-- What `checkOneLeader` is told in one of its iterations: which peers are connected, what each has
answered when it was asked, and the order in which Go goes through the terms of the map. -/
structure Observation (n : ℕ) where
  connected : Fin n → Bool
  states : Fin n → ℕ × Bool
  terms : List ℕ

namespace Observation

variable (o : Observation n)

/-- One iteration of the loop that builds the map. -/
def addLeader (leaders : ℕ → List (Fin n)) (i : Fin n) : ℕ → List (Fin n) :=
  if o.connected i then
    let (term, leader) := o.states i
    if leader then Function.update leaders term (leaders term ++ [i]) else leaders
  else leaders

/-- The map `leaders`. -/
def leaders : ℕ → List (Fin n) := (List.finRange n).foldl o.addLeader fun _ => []

/-- Go goes through the terms that the map has, once through each. -/
structure Ranges : Prop where
  nodup : o.terms.Nodup
  mem : ∀ term, term ∈ o.terms ↔ o.leaders term ≠ []

/-- One iteration of the loop over the map. `none` if a term has several leaders, which ends the
test. -/
def lastStep (lastTermWithLeader : ℤ) (term : ℕ) : Option ℤ :=
  if (o.leaders term).length > 1 then none
  else some (if (term : ℤ) > lastTermWithLeader then term else lastTermWithLeader)

/-- One iteration of `checkOneLeader`: the leader that is returned, `some none` to try again, and
`none` for the end of the test. -/
def once : Option (Option (Fin n)) := do
  let lastTermWithLeader ← o.terms.foldlM o.lastStep (-1)
  if o.terms.length ≠ 0 then
    let leader ← (o.leaders lastTermWithLeader.toNat)[0]?
    return some leader
  else return none

end Observation

/-- The iterations of `checkOneLeader`. `none` is the end of the test.
Source: `config.go` `checkOneLeader` -/
def checkOneLeader : List (Observation n) → Option (Fin n)
  | [] => none
  | o :: os =>
      match o.once with
      | none => none
      | some (some leader) => some leader
      | some none => checkOneLeader os

section Leaders

variable {o : Observation n}

/-- The map has the connected leaders of each term, in their order. -/
lemma Observation.leaders_eq (o : Observation n) (term : ℕ) : o.leaders term =
    (List.finRange n).filter fun i => o.connected i = true ∧ o.states i = (term, true) := by
  have hfold : ∀ (js : List (Fin n)) (m : ℕ → List (Fin n)), js.foldl o.addLeader m term =
      m term ++ js.filter fun i => o.connected i = true ∧ o.states i = (term, true) := by
    intro js
    induction js with
    | nil => simp
    | cons j js ih =>
        intro m
        have hfirst : o.addLeader m j term =
            m term ++ [j].filter fun i => o.connected i = true ∧ o.states i = (term, true) := by
          unfold Observation.addLeader
          by_cases hc : o.connected j = true
          · rcases hs : o.states j with ⟨T, _ | _⟩
            · simp [hc, hs]
            · by_cases hT : term = T
              · simp [hc, hs, hT]
              · simp [hc, hs, hT, Ne.symm hT]
          · simp [hc]
        rw [List.foldl_cons, ih, hfirst, List.append_assoc, ← List.filter_append]
        rfl
  exact (hfold _ _).trans (List.nil_append _)

/-- A leader of a term is a connected peer that says so. -/
lemma Observation.mem_leaders {term : ℕ} {i : Fin n} :
    i ∈ o.leaders term ↔ o.connected i = true ∧ o.states i = (term, true) := by
  rw [o.leaders_eq, List.mem_filter]
  simp

/-- The loop over the map ends with the highest term, if no term has two leaders. -/
lemma Observation.foldlM_lastStep (hone : ∀ term, (o.leaders term).length ≤ 1) (terms : List ℕ)
    (last : ℤ) : ∃ last', terms.foldlM o.lastStep last = some last' ∧ last ≤ last' ∧
      (∀ term ∈ terms, (term : ℤ) ≤ last') ∧ (last' = last ∨ ∃ term ∈ terms, last' = term) := by
  induction terms generalizing last with
  | nil => exact ⟨last, rfl, le_rfl, by simp, Or.inl rfl⟩
  | cons term terms ih =>
      have hstep : o.lastStep last term =
          some (if (term : ℤ) > last then (term : ℤ) else last) := by
        unfold Observation.lastStep
        rw [if_neg (not_lt.mpr (hone term))]
      obtain ⟨last', hfold, hle, hall, hfrom⟩ := ih (if (term : ℤ) > last then (term : ℤ) else last)
      refine ⟨last', ?_, ?_, ?_, ?_⟩
      · rw [List.foldlM_cons, hstep]
        exact hfold
      · split_ifs at hle with hgt
        · omega
        · exact hle
      · rw [List.forall_mem_cons]
        refine ⟨?_, hall⟩
        split_ifs at hle with hgt
        · exact hle
        · omega
      · rcases hfrom with rfl | ⟨term', hmem, rfl⟩
        · split_ifs with hgt
          · exact Or.inr ⟨term, List.mem_cons_self, rfl⟩
          · exact Or.inl rfl
        · exact Or.inr ⟨term', List.mem_cons_of_mem _ hmem, rfl⟩

/-- What one iteration of `checkOneLeader` makes of answers with no two leaders of a term. -/
lemma Observation.once_cases (hranges : o.Ranges)
    (hone : ∀ i j T, o.connected i = true → o.connected j = true → o.states i = (T, true) →
      o.states j = (T, true) → i = j) :
    (o.once = some none ∧ ∀ i, o.connected i = true → (o.states i).2 = false) ∨
      ∃ s T, o.once = some (some s) ∧ o.connected s = true ∧ o.states s = (T, true) ∧
        ∀ i T', o.connected i = true → o.states i = (T', true) → T' ≤ T := by
  have hlength : ∀ term, (o.leaders term).length ≤ 1 := by
    intro term
    have hnodup : (o.leaders term).Nodup := by
      rw [o.leaders_eq]
      exact (List.nodup_finRange n).filter _
    rw [← List.toFinset_card_of_nodup hnodup, Finset.card_le_one]
    intro i hi j hj
    obtain ⟨hi, hsi⟩ := Observation.mem_leaders.mp (List.mem_toFinset.mp hi)
    obtain ⟨hj, hsj⟩ := Observation.mem_leaders.mp (List.mem_toFinset.mp hj)
    exact hone i j term hi hj hsi hsj
  obtain ⟨last, hfold, -, hall, hfrom⟩ := Observation.foldlM_lastStep hlength o.terms (-1)
  -- the terms of the map are those of the connected leaders
  have hterms : ∀ i T, o.connected i = true → o.states i = (T, true) → T ∈ o.terms := by
    intro i T hi hT
    exact (hranges.mem T).mpr (List.ne_nil_of_mem (Observation.mem_leaders.mpr ⟨hi, hT⟩))
  by_cases hempty : o.terms = []
  · refine Or.inl ⟨?_, fun i hi => ?_⟩
    · unfold Observation.once
      rw [hfold, hempty]
      rfl
    · rcases hs : o.states i with ⟨T, _ | _⟩
      · rfl
      · have hmem := hterms i T hi hs
        rw [hempty] at hmem
        cases hmem
  · obtain ⟨term, hterm, rfl⟩ : ∃ term ∈ o.terms, last = (term : ℤ) := by
      rcases hfrom with rfl | hfrom
      · obtain ⟨term, hterm⟩ := List.exists_mem_of_ne_nil _ hempty
        have hle := hall term hterm
        omega
      · exact hfrom
    obtain ⟨s, rest, hs⟩ := List.exists_cons_of_ne_nil ((hranges.mem term).mp hterm)
    obtain ⟨hconnected, hstate⟩ := Observation.mem_leaders.mp (hs ▸ List.mem_cons_self :
      s ∈ o.leaders term)
    refine Or.inr ⟨s, term, ?_, hconnected, hstate, fun i T' hi hT' => ?_⟩
    · unfold Observation.once
      rw [hfold]
      simp [hempty, hs]
    · exact Int.ofNat_le.mp (hall T' (hterms i T' hi hT'))

/-- **`checkOneLeader` never finds two leaders of a term**, although it asks the peers at different
moments, in the runs in which no `RequestVote` of a higher term reaches a leader and no
`AppendEntries` of its own term reaches a candidate or leader that has voted. The peer that it
returns has answered that it leads the highest term. If the test fails, then no connected peer has
answered in any of the iterations that it is a leader. -/
theorem checkOneLeader_accepts [Inhabited C] {tr : Trace n C} {st : Cluster n C}
    (h : (cluster n C).Run tr st) (hD : Avoids (fun x a => electionSlip x a) tr)
    (os : List (Observation n)) (hranges : ∀ o ∈ os, o.Ranges)
    (hasked : ∀ o ∈ os, ∀ i, ∃ x, Visited tr st x ∧ o.states i = (x.rafts i).getState) :
    (∀ s, checkOneLeader os = some s → ∃ o ∈ os, ∃ T, o.connected s = true ∧
      o.states s = (T, true) ∧ ∀ i T', o.connected i = true → o.states i = (T', true) → T' ≤ T) ∧
    (checkOneLeader os = none → ∀ o ∈ os, ∀ i, o.connected i = true → (o.states i).2 = false) := by
  -- whoever has answered that it is a leader has won its term
  have hwon : ∀ o ∈ os, ∀ i T, o.states i = (T, true) → Won st i T := by
    intro o ho i T hi
    obtain ⟨x, hx, hstate⟩ := hasked o ho i
    rw [hi] at hstate
    obtain ⟨hT, hleader⟩ := Prod.mk.inj hstate
    obtain ⟨tr', htr', hrun⟩ := h.of_visited hx
    have hD' : Avoids (fun x a => raisesLeader x a) tr' := fun q hq =>
      avoids_raisesLeader hD q (htr'.subset hq)
    have hwon := won_of_leader hrun hD' (s := i) (by simpa using hleader.symm)
    rw [hT]
    exact hwon.mono h hx
  have hone : ∀ o ∈ os, ∀ i j T, o.connected i = true → o.connected j = true →
      o.states i = (T, true) → o.states j = (T, true) → i = j := by
    intro o ho i j T _ _ hi hj
    exact (hwon o ho i T hi).unique (votes_of_run h (avoids_forgetsVote hD)).2 (hwon o ho j T hj)
  clear hasked hwon
  induction os with
  | nil => simp [checkOneLeader]
  | cons o os ih =>
      obtain ⟨hsome, hnone⟩ := ih (fun o ho => hranges o (List.mem_cons_of_mem _ ho))
        fun o ho => hone o (List.mem_cons_of_mem _ ho)
      unfold checkOneLeader
      rcases Observation.once_cases (hranges o List.mem_cons_self) (hone o List.mem_cons_self) with
        ⟨honce, hleaders⟩ | ⟨s, T, honce, hconnected, hstate, hmax⟩
      · rw [honce]
        refine ⟨fun s hs => ?_, fun hs => ?_⟩
        · obtain ⟨o', ho', hex⟩ := hsome s hs
          exact ⟨o', List.mem_cons_of_mem _ ho', hex⟩
        · rw [List.forall_mem_cons]
          exact ⟨hleaders, hnone hs⟩
      · rw [honce]
        refine ⟨fun s' hs => ?_, by simp⟩
        obtain rfl := Option.some.inj hs
        exact ⟨o, List.mem_cons_self, T, hconnected, hstate, hmax⟩

/-- Peer 0 answers that it leads term 1. -/
def firstLeads : Observation 3 := ⟨fun _ => true, ![(1, true), (1, false), (1, false)], [1]⟩

/-- `range` goes through term 1, the only one with a leader. -/
lemma firstLeads_ranges : firstLeads.Ranges := by
  refine ⟨by decide, fun term => ?_⟩
  rw [Ne, List.eq_nil_iff_forall_not_mem]
  simp only [Observation.mem_leaders, not_forall, not_not]
  constructor
  · intro hterm
    obtain rfl := List.mem_singleton.mp hterm
    exact ⟨0, rfl, rfl⟩
  · rintro ⟨i, -, hi⟩
    revert hi
    fin_cases i <;> simp [firstLeads, eq_comm]

/-- Peer 0 leads term 1 when it is asked, and is found. -/
theorem checkOneLeader_accepts_run : ∃ (tr : Trace 3 ℕ) (st : Cluster 3 ℕ),
    (cluster 3 ℕ).Run tr st ∧ Avoids (fun x a => electionSlip x a) tr ∧
    (∀ i, firstLeads.states i = (st.rafts i).getState) ∧ checkOneLeader [firstLeads] = some 0 ∧
    ∃ T, firstLeads.states 0 = (T, true) ∧ ∀ i T', firstLeads.states i = (T', true) → T' ≤ T := by
  obtain ⟨tr, st, h, hD, hstates⟩ := (cluster 3 ℕ).exists_run_of_exec
    [.timer 0, .attemptEletion 0, .requestVote 0 1, .requestVote 0 2, .voteReply 0 2]
    (fun tr st => Avoids (fun x a => electionSlip x a) tr ∧
      ∀ i, firstLeads.states i = (st.rafts i).getState) (by decide)
  have honce : checkOneLeader [firstLeads] = some 0 := by decide
  obtain ⟨hsome, -⟩ := checkOneLeader_accepts h hD [firstLeads]
    (by simpa using firstLeads_ranges)
    (by simpa using fun i => ⟨st, Visited.now tr st, hstates i⟩)
  obtain ⟨o, ho, T, -, hT, hmax⟩ := hsome 0 honce
  obtain rfl := List.mem_singleton.mp ho
  exact ⟨tr, st, h, hD, hstates, honce, T, hT, fun i T' hi => hmax i T' rfl hi⟩

end Leaders

end GoLabs.Consensus
