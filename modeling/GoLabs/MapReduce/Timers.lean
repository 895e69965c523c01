import GoLabs.MapReduce.Server

/-!
# Timers and hand-outs

A timer is never stopped and compares nothing but the status word, which does not say for the how
many-th time the task is running. Yet a timer that resets a task was started by the latest hand-out
of it (`inStep`): a task is handed out only in status 0, and in status 0 it has no timer left.

`TimersOk` counts the timers of each task in all states, those included in which a call of
`HandleWorker` has stored the status and has not started the timer yet. `Counted` adds up the
hand-outs of a whole run.
-/

namespace GoLabs.MapReduce

open GoLabs.Lib

variable {V : Type} {c : Coordinator} {sv sv' : Server V} {a : Event V} {t u : Task}

/-! ## The timers of a task -/

/-- The timers of a task that have not woken up yet. -/
def Server.pending (sv : Server V) (t : Task) : List Timer := sv.timers.filter fun r => r.task = t

/-- What the timers keep. -/
structure TimersOk (sv : Server V) : Prop where
  /-- Between the store and the start of the timer there is none. -/
  stored : ∀ v t, sv.call = some (v, .stored t) → sv.status t ≠ .notRun ∧ sv.pending t = []
  notRun : ∀ t, sv.status t = .notRun → sv.pending t = []
  running : ∀ t, sv.status t = .running → (∀ v, sv.call ≠ some (v, .stored t)) →
    sv.pending t = [⟨t, sv.handOuts t⟩]
  atMostOne : ∀ t, (sv.pending t).length ≤ 1

/-- At first there is no timer. -/
lemma timersOk_init : TimersOk (Server.init : Server V) where
  stored v t h := by cases h
  notRun t _ := rfl
  running t h := by cases h
  atMostOne t := Nat.zero_le 1

/-- The timer that wakes up is taken out of the list. -/
lemma Server.timers_expire {k : ℕ} {r : Timer} (hk : sv.timers[k]? = some r) :
    ∃ l₁ l₂, sv.timers = l₁ ++ r :: l₂ ∧ (sv.expire k r.task).timers = l₁ ++ l₂ := by
  obtain ⟨hlt, rfl⟩ := List.getElem?_eq_some_iff.mp hk
  refine ⟨sv.timers.take k, sv.timers.drop (k + 1), ?_, List.eraseIdx_eq_take_drop_succ _ _⟩
  rw [List.getElem_cons_drop, List.take_append_drop]

/-- A timer that wakes up leaves the timers of the other tasks. -/
lemma Server.pending_expire_of_ne {k : ℕ} {r : Timer} (hk : sv.timers[k]? = some r)
    (ht : r.task ≠ t) : (sv.expire k r.task).pending t = sv.pending t := by
  obtain ⟨l₁, l₂, htimers, hexpire⟩ := Server.timers_expire hk
  simp [Server.pending, htimers, hexpire, ht]

/-- A timer that wakes up is one of its task less. -/
lemma Server.length_pending_expire {k : ℕ} {r : Timer} (hk : sv.timers[k]? = some r) :
    (sv.pending r.task).length = ((sv.expire k r.task).pending r.task).length + 1 := by
  obtain ⟨l₁, l₂, htimers, hexpire⟩ := Server.timers_expire hk
  simp [Server.pending, htimers, hexpire]
  omega

/-- A timer is one of its task. -/
lemma Server.mem_pending {k : ℕ} {r : Timer} (hk : sv.timers[k]? = some r) :
    r ∈ sv.pending r.task := by
  unfold Server.pending
  rw [List.mem_filter]
  exact ⟨List.mem_of_getElem? hk, by simp⟩

/-! ## One step -/

/-- What a compare-and-swap leaves for each task. -/
lemma cas_apply (status : Task → TaskStatus) (u t : Task) (old new : TaskStatus) :
    cas status u old new t = if t = u ∧ status t = old then new else status t := by
  unfold cas
  by_cases htu : t = u
  · subst htu
    by_cases hs : status t = old
    · rw [if_pos hs, if_pos ⟨rfl, hs⟩, Function.update_self]
    · rw [if_neg hs, if_neg fun h => hs h.2]
  · rw [if_neg (fun h : t = u ∧ status t = old => htu h.1)]
    split_ifs
    · exact Function.update_of_ne htu _ _
    · rfl

/-- The scans of `HandleWorker` and of `Done` do not concern the timers. -/
lemma TimersOk.of_call (h : TimersOk sv) (hs : sv'.status = sv.status)
    (ht : sv'.timers = sv.timers) (ha : sv'.assigned = sv.assigned)
    (hcall : ∀ v t, sv'.call = some (v, .stored t) ↔ sv.call = some (v, .stored t)) :
    TimersOk sv' := by
  have hpending : ∀ t, sv'.pending t = sv.pending t := fun t => by rw [Server.pending, ht]; rfl
  have hhand : ∀ t, sv'.handOuts t = sv.handOuts t := fun t => by rw [Server.handOuts, ha]; rfl
  refine ⟨fun v t hc => ?_, fun t hn => ?_, fun t hr hc => ?_, fun t => ?_⟩
  · rw [hs, hpending]
    exact h.stored v t ((hcall v t).mp hc)
  · rw [hpending]
    exact h.notRun t (hs ▸ hn)
  · rw [hpending, hhand]
    exact h.running t (hs ▸ hr) fun v hv => hc v ((hcall v t).mpr hv)
  · rw [hpending]
    exact h.atMostOne t

/-- The store finds no timer of the task. -/
lemma TimersOk.store (h : TimersOk sv) {v : V} {pc : HandlerPc}
    (hcall : sv.call = some (v, .scanning pc)) (hnot : sv.status t = .notRun) :
    TimersOk (sv.store v t) := by
  have hother : ∀ u, u ≠ t → (sv.store v t).status u = sv.status u :=
    fun u hu => Function.update_of_ne hu _ _
  have hself : (sv.store v t).status t = .running := Function.update_self _ _ _
  refine ⟨fun w u hc => ?_, fun u hu => ?_, fun u hr hc => ?_, h.atMostOne⟩
  · cases hc
    exact ⟨by rw [hself]; decide, h.notRun t hnot⟩
  · by_cases hut : u = t
    · rw [hut, hself] at hu
      cases hu
    · exact h.notRun u (hother u hut ▸ hu)
  · by_cases hut : u = t
    · exact absurd (hut ▸ rfl) (hc v)
    · exact h.running u (hother u hut ▸ hr) fun w hw => by rw [hcall] at hw; cases hw

/-- Handing out a task starts one timer, for this hand-out of the task. -/
lemma Server.pending_handOut (sv : Server V) (v : V) (t u : Task) :
    (sv.handOut v t).pending u =
      sv.pending u ++ if t = u then [⟨t, (sv.handOut v t).handOuts t⟩] else [] := by
  have hcount : (sv.handOut v t).handOuts t = sv.handOuts t + 1 := by
    simp [Server.handOut, Server.handOuts]
  rw [hcount]
  simp only [Server.pending, Server.handOut, List.filter_append, List.filter_singleton]
  simp

/-- Handing out a task does not count for another one. -/
lemma Server.handOuts_handOut_of_ne (sv : Server V) (v : V) (h : t ≠ u) :
    (sv.handOut v t).handOuts u = sv.handOuts u := by
  simp [Server.handOut, Server.handOuts, h]

/-- The timer that is started is the only one of its task. -/
lemma TimersOk.handOut (h : TimersOk sv) {v : V} (hcall : sv.call = some (v, .stored t)) :
    TimersOk (sv.handOut v t) := by
  obtain ⟨hne, hnone⟩ := h.stored v t hcall
  have hother : ∀ u, t ≠ u → (sv.handOut v t).pending u = sv.pending u :=
    fun u hu => by rw [Server.pending_handOut, if_neg hu, List.append_nil]
  have hself : (sv.handOut v t).pending t = [⟨t, (sv.handOut v t).handOuts t⟩] := by
    rw [Server.pending_handOut, if_pos rfl, hnone, List.nil_append]
  refine ⟨fun w u hc => (by cases hc), fun u hu => ?_, fun u hr _ => ?_, fun u => ?_⟩
  · by_cases htu : t = u
    · exact absurd (htu ▸ hu) hne
    · exact (hother u htu).trans (h.notRun u hu)
  · by_cases htu : t = u
    · exact htu ▸ hself
    · rw [hother u htu, Server.handOuts_handOut_of_ne sv v htu]
      refine h.running u hr fun w hw => ?_
      rw [hcall] at hw
      cases hw
      exact htu rfl
  · by_cases htu : t = u
    · rw [← htu, hself, List.length_singleton]
    · rw [hother u htu]
      exact h.atMostOne u

/-- The report of a task keeps the invariant: its timer stays. -/
lemma TimersOk.finish (h : TimersOk sv) (u : Task) :
    TimersOk { sv with status := cas sv.status u .running .finished } := by
  refine ⟨fun v t hc => ⟨?_, (h.stored v t hc).2⟩, fun t ht => ?_, fun t ht hc => ?_, h.atMostOne⟩
  · dsimp only
    rw [cas_apply]
    split_ifs
    · decide
    · exact (h.stored v t hc).1
  · dsimp only at ht
    rw [cas_apply] at ht
    split_ifs at ht
    exact h.notRun t ht
  · dsimp only at ht
    rw [cas_apply] at ht
    split_ifs at ht
    exact h.running t ht hc

/-- A timer that wakes up finds the task in the status that its own hand-out has left, or
finished. -/
lemma TimersOk.expire (h : TimersOk sv) {k : ℕ} {r : Timer} (hk : sv.timers[k]? = some r) :
    TimersOk (sv.expire k r.task) := by
  have hmem := Server.mem_pending hk
  -- its task is not between the store and the start of a timer
  have hcall : ∀ v, sv.call ≠ some (v, .stored r.task) := by
    intro v hv
    rw [(h.stored v r.task hv).2] at hmem
    exact List.not_mem_nil hmem
  have hother : ∀ t, r.task ≠ t → (sv.expire k r.task).pending t = sv.pending t :=
    fun t => Server.pending_expire_of_ne hk
  have hself : (sv.expire k r.task).pending r.task = [] := by
    have hlen := Server.length_pending_expire hk
    have hone := h.atMostOne r.task
    exact List.length_eq_zero_iff.mp (by omega)
  have hstatus : ∀ t, r.task ≠ t → (sv.expire k r.task).status t = sv.status t := by
    intro t ht
    change cas sv.status r.task .running .notRun t = sv.status t
    rw [cas_apply, if_neg fun hc => ht hc.1.symm]
  refine ⟨fun v t hc => ?_, fun t ht => ?_, fun t ht hc => ?_, fun t => ?_⟩
  · have hne : r.task ≠ t := fun heq => hcall v (heq ▸ hc)
    rw [hstatus t hne, hother t hne]
    exact h.stored v t hc
  · by_cases hrt : r.task = t
    · exact hrt ▸ hself
    · rw [hother t hrt]
      exact h.notRun t (hstatus t hrt ▸ ht)
  · by_cases hrt : r.task = t
    · subst hrt
      change cas sv.status r.task .running .notRun r.task = .running at ht
      rw [cas_apply] at ht
      split_ifs at ht with hrun
      exact absurd ⟨rfl, ht⟩ hrun
    · rw [hother t hrt]
      exact h.running t (hstatus t hrt ▸ ht) hc
  · by_cases hrt : r.task = t
    · rw [← hrt, hself]
      exact Nat.zero_le 1
    · rw [hother t hrt]
      exact h.atMostOne t

/-- **One step keeps the timers in step.** -/
theorem ServerStep.timersOk (hst : ServerStep c sv a sv') (hok : ServerOk c sv)
    (h : TimersOk sv) : TimersOk sv' := by
  cases hst with
  | lock hcall => exact h.of_call rfl rfl rfl (by simp [hcall])
  | goto hcall hn => exact h.of_call rfl rfl rfl (by simp [hcall])
  | unlock hcall hn => exact h.of_call rfl rfl rfl (by simp [hcall])
  | store hcall hn => exact h.store hcall ((hok.scanning _ _ hcall).store hn).1
  | handOut hcall => exact h.handOut hcall
  | finish hmem hu => exact h.finish _
  | timer hk => exact h.expire hk
  | _ => exact h.of_call rfl rfl rfl fun _ _ => Iff.rfl

/-! ## Counting hand-outs -/

/-- This step is the expiration of a timer that resets `t` to status 0. -/
def resets (t : Task) (q : Server V × Event V) : Bool :=
  match q.2 with
  | .timer k => q.1.status t = .running ∧ (q.1.timers[k]?).any fun r => r.task = t
  | _ => false

/-- `HandleWorker` has stored the status of `t` and not handed it out yet. -/
def Server.storing (sv : Server V) (t : Task) : Bool :=
  match sv.call with
  | some (_, .stored u) => u = t
  | _ => false

/-- `t` is not in status 0. -/
def Server.busy (sv : Server V) (t : Task) : Bool := sv.status t ≠ .notRun

/-- After `n` resets the hand-outs, the one under way included, are `n`, and one more if the task is
not in status 0. -/
def Server.Counted (sv : Server V) (t : Task) (n : ℕ) : Prop :=
  sv.handOuts t + (sv.storing t).toNat = n + (sv.busy t).toNat

/-- One step keeps the count: a reset allows one more hand-out. -/
lemma ServerStep.counted (hst : ServerStep c sv a sv') (hok : ServerOk c sv) {n : ℕ}
    (h : sv.Counted t n) : sv'.Counted t (n + (resets t (sv, a)).toNat) := by
  -- a step that changes none of the numbers
  have hsame : ∀ {x : Server V}, x.handOuts t = sv.handOuts t → x.storing t = sv.storing t →
      (x.status t = .notRun ↔ sv.status t = .notRun) → x.Counted t n := by
    intro x hhand hstoring hstatus
    have hbusy : x.busy t = sv.busy t := by simp only [Server.busy, ne_eq, hstatus]
    unfold Server.Counted
    rw [hhand, hstoring, hbusy]
    exact h
  cases hst with
  | lock hcall => exact hsame rfl (by simp [Server.storing, hcall]) Iff.rfl
  | goto hcall hn => exact hsame rfl (by simp [Server.storing, hcall]) Iff.rfl
  | unlock hcall hn => exact hsame rfl (by simp [Server.storing, hcall]) Iff.rfl
  | @store v pc u hcall hn =>
      have hnot := ((hok.scanning _ _ hcall).store hn).1
      have hold : sv.storing t = false := by simp [Server.storing, hcall]
      by_cases htu : u = t
      · subst htu
        have hbusy : sv.busy u = false := by simp [Server.busy, hnot]
        have hbusy' : (sv.store v u).busy u = true := by simp [Server.busy, Server.store]
        have hnew : (sv.store v u).storing u = true := by simp [Server.storing, Server.store]
        unfold Server.Counted at h ⊢
        rw [hold, hbusy] at h
        rw [hnew, hbusy']
        exact congrArg (· + 1) h
      · refine hsame rfl ?_ ?_
        · rw [hold]
          simp [Server.storing, Server.store, htu]
        · simp [Server.store, Ne.symm htu]
  | @handOut v u hcall =>
      have hhand : (sv.handOut v u).handOuts t = sv.handOuts t + (sv.storing t).toNat := by
        by_cases htu : u = t
        · simp [Server.handOuts, Server.handOut, Server.storing, hcall, htu]
        · simp [Server.handOuts, Server.handOut, Server.storing, hcall, htu]
      unfold Server.Counted
      rw [hhand]
      exact h
  | @finish v w u hmem hu =>
      refine hsame rfl rfl ?_
      dsimp only
      rw [cas_apply]
      split_ifs with hrun
      · simp [hrun.2]
      · rfl
  | @timer k r hk =>
      by_cases hrun : sv.status t = .running ∧ r.task = t
      · obtain ⟨hrun, rfl⟩ := hrun
        have hreset : resets r.task (sv, .timer k) = true := by simp [resets, hk, hrun]
        have hbusy : sv.busy r.task = true := by simp [Server.busy, hrun]
        have hbusy' : (sv.expire k r.task).busy r.task = false := by
          simp [Server.busy, Server.expire, cas_apply, hrun]
        unfold Server.Counted at h ⊢
        rw [hbusy] at h
        rw [hreset, hbusy']
        exact h
      · have hno : resets t (sv, .timer k) = false := by simpa [resets, hk] using hrun
        rw [hno]
        refine hsame rfl rfl ?_
        unfold Server.expire
        dsimp only
        rw [cas_apply, if_neg fun heq => hrun ⟨heq.2, heq.1.symm⟩]
  | _ => exact hsame rfl rfl Iff.rfl

section Runs

variable [DecidableEq V] {files : List Str} {nReduce : ℕ} {tr : List (Server V × Event V)}

/-- The invariant of the timers holds in every run. -/
lemma timersOk_of_run (h : (server V files nReduce).Run tr sv) : TimersOk sv := by
  induction h with
  | init => exact timersOk_init
  | step h hs ih => exact (ServerStep.of_step hs).timersOk (serverOk_of_run h) ih

/-- In every run the hand-outs of a task are counted by its resets. -/
lemma counted_of_run (h : (server V files nReduce).Run tr sv) (t : Task) :
    sv.Counted t (tr.countP (resets t)) := by
  induction h with
  | init => rfl
  | @step tr x y a h hs ih =>
      have hstep := (ServerStep.of_step hs).counted (serverOk_of_run h) ih
      rw [List.countP_cons]
      cases hr : resets t (x, a) <;> simpa [hr] using hstep

/-- A running task is reset by its timer as soon as that wakes up. -/
lemma exists_reset (h : (server V files nReduce).Run tr sv) (hfree : sv.call = none)
    (ht : sv.status t = .running) :
    ∃ k sv', (server V files nReduce).step sv (.timer k) = some sv' ∧ sv'.status t = .notRun := by
  have hpending := (timersOk_of_run h).running t ht (by simp [hfree])
  have hmem : (⟨t, sv.handOuts t⟩ : Timer) ∈ sv.pending t := by
    rw [hpending]
    exact List.mem_singleton_self _
  obtain ⟨k, hk⟩ := List.getElem?_of_mem (List.mem_of_mem_filter hmem)
  have hstep : ServerStep (makeCoordinator files nReduce) sv (.timer k) (sv.expire k t) := .timer hk
  refine ⟨k, _, hstep.to_step, ?_⟩
  change cas sv.status t .running .notRun t = .notRun
  rw [cas_apply, if_pos ⟨rfl, ht⟩]

/-- A timer that finds its task in status 1 was started by the latest hand-out. -/
lemma serial_of_running (h : (server V files nReduce).Run tr sv) {k : ℕ} {r : Timer}
    (hk : sv.timers[k]? = some r) (ht : sv.status r.task = .running) :
    r.serial = sv.handOuts r.task := by
  have hok := timersOk_of_run h
  have hmem := Server.mem_pending hk
  rw [hok.running r.task ht, List.mem_singleton] at hmem
  · exact congrArg Timer.serial hmem
  · intro v hv
    rw [(hok.stored v r.task hv).2] at hmem
    exact List.not_mem_nil hmem

/-- **Timers and hand-outs stay in step**, in every run of the coordinator.

1. While the mutex is free, a task in status 0 has no timer, a task in status 1 has exactly one,
   started by its latest hand-out, and a task in status 2 has at most one. A task in status 1 can be
   reset, whatever its worker does, and the hand-outs of a task are its resets and one more if it is
   not in status 0.
2. Whenever a timer resets a task, it was started by the latest hand-out of that task. -/
theorem inStep (h : (server V files nReduce).Run tr sv) :
    (sv.call = none → ∀ t,
      (sv.status t = .notRun → sv.pending t = []) ∧
      (sv.status t = .running → sv.pending t = [⟨t, sv.handOuts t⟩]) ∧
      (sv.status t = .finished → (sv.pending t).length ≤ 1) ∧
      (sv.status t = .running → ∃ k sv',
        (server V files nReduce).step sv (.timer k) = some sv' ∧ sv'.status t = .notRun) ∧
      sv.handOuts t = tr.countP (resets t) + if sv.status t ≠ .notRun then 1 else 0) ∧
    ∀ x k r, (x, .timer k) ∈ tr → x.timers[k]? = some r → x.status r.task = .running →
      r.serial = x.handOuts r.task := by
  have hok := timersOk_of_run h
  constructor
  · intro hfree t
    refine ⟨hok.notRun t, fun ht => hok.running t ht (by simp [hfree]), fun _ => hok.atMostOne t,
      exists_reset h hfree, ?_⟩
    have hcount := counted_of_run h t
    have hnone : sv.storing t = false := by simp [Server.storing, hfree]
    have hbusy : (sv.busy t).toNat = if sv.status t ≠ .notRun then 1 else 0 := by
      by_cases hs : sv.status t = .notRun <;> simp [Server.busy, hs]
    rw [Server.Counted, hnone, hbusy] at hcount
    exact hcount
  · intro x k r hx hk ht
    obtain ⟨-, tr₂, -, -, hrun, -⟩ := h.of_mem hx
    exact serial_of_running hrun hk ht

/-- Worker 0 is slow and the map task is handed out again, to worker 1; worker 1 dies, the second
timer resets the task, and the third hand-out is running when the late report of worker 0 comes.
Its timer is still there. -/
theorem inStep_run : ∃ tr sv, (server (Fin 3) [ascii "b"] 1).Run tr sv ∧ sv.call = none ∧
    sv.status (.map 0) = .finished ∧ sv.pending (.map 0) = [⟨.map 0, 3⟩] ∧
    sv.handOuts (.map 0) = tr.countP (resets (.map 0)) + 1 := by
  obtain ⟨tr, sv, h, hfree, hfin, hpending⟩ :=
    (server (Fin 3) [ascii "b"] 1).exists_run_of_exec
      (List.flatten [[.lock 0, .handler, .handler, .handler, .timer 0],
        [.lock 1, .handler, .handler, .handler, .timer 0],
        [.lock 2, .handler, .handler, .handler, .finish 0 (.map 0)]])
      (fun _ sv => sv.call.isNone ∧ sv.status (.map 0) = .finished ∧
        sv.pending (.map 0) = [⟨.map 0, 3⟩]) (by decide)
  have hnone := Option.isNone_iff_eq_none.mp hfree
  obtain ⟨-, -, -, -, hcount⟩ := (inStep h).1 hnone (.map 0)
  rw [hfin] at hcount
  exact ⟨tr, sv, h, hnone, hfin, hpending, hcount⟩

end Runs

end GoLabs.MapReduce
