import GoLabs.Porcupine.Parallel

/-!
# `checkParallel` returns

Every step of `checkParallel` uses up something (`Par.Inv.measure_lt`): an iteration of a search
that is going to end, a place of the main goroutine or of another one, or an answer in the channel.
So there is a bound on the number of steps. As long as the main goroutine has not returned there is
a step to take, and one that is not the timer (`Par.Inv.progress`): some goroutine is not done, or
there is an answer in the channel. This needs a goroutine. Without any, and without a timeout, the
main goroutine waits for ever (`parallel_stuck`).
-/

namespace GoLabs.Porcupine

open GoLabs.Lib

variable {ι ο σ : Type} {model : FullModel ι ο σ} {history : List (List (Entry ι ο))}
  {computeInfo : Bool} {timeout : ℤ} {st st' : Par ι ο σ}

/-! ## The measure -/

/-- The number of iterations that a search has left. -/
noncomputable def Setup.left (C : Setup ι ο σ) (x : CheckState σ) : ℕ :=
  sInf {k | ∃ r, EndsIn (C.checkStep false) k x r}

/-- How far a search has to go is known. -/
lemma Setup.left_eq {C : Setup ι ο σ} {x : CheckState σ} {k : ℕ} {r : Bool × Longest}
    (h : EndsIn (C.checkStep false) k x r) : C.left x = k := by
  have hset : {k | ∃ r, EndsIn (C.checkStep false) k x r} = {k} := by
    ext j
    constructor
    · rintro ⟨r', hr'⟩
      exact hr'.unique h
    · rintro rfl
      exact ⟨r, h⟩
  unfold Setup.left
  rw [hset, csInf_singleton]

/-- The number of steps that a goroutine has left, and one for its answer. -/
noncomputable def Worker.left (model : FullModel ι ο σ) (computeInfo : Bool) : Worker ι ο σ → ℕ
  | .starting subhistory =>
      match checkSetup model subhistory computeInfo with
      | none => 0
      | some (C, x) => C.left x + 5
  | .running C x => C.left x + 4
  | .returned _ _ => 3
  | .stored _ _ => 2
  | .done _ _ => 0

/-- Where the main goroutine is. -/
def MainPc.left : MainPc ι ο → ℕ
  | .selecting => 2
  | .waiting => 1
  | .returned _ _ => 0

/-- All that is left to do. -/
noncomputable def Par.measure (model : FullModel ι ο σ) (computeInfo : Bool) (st : Par ι ο σ) : ℕ :=
  (st.workers.map (Worker.left model computeInfo)).sum + st.results.length + st.pc.left

/-- The sum when one element is replaced. -/
lemma sum_map_set {α : Type} (f : α → ℕ) {as : List α} {i : ℕ} {a : α} (ha : as[i]? = some a)
    (b : α) : ((as.set i b).map f).sum + f a = (as.map f).sum + f b := by
  induction as generalizing i with
  | nil => cases ha
  | cons c as ih =>
      cases i with
      | zero =>
          obtain rfl : c = a := by simpa using ha
          simp only [List.set_cons_zero, List.map_cons, List.sum_cons]
          omega
      | succ i =>
          have ih := ih (i := i) (by simpa using ha)
          simp only [List.set_cons_succ, List.map_cons, List.sum_cons]
          omega

/-- A goroutine has less left after its step. -/
lemma Par.Inv.work_lt {i : ℕ} (hst : st.Inv model history computeInfo timeout)
    (hends : ∀ h ∈ history, ∃ ok l, Answers model computeInfo h ok l)
    (hstep : st.work model computeInfo i = some st') :
    st'.measure model computeInfo < st.measure model computeInfo := by
  unfold Par.work at hstep
  cases hw : st.workers[i]? with
  | none =>
      rw [hw] at hstep
      cases hstep
  | some w =>
      have hi : i < history.length := hst.length ▸ (List.getElem?_eq_some_iff.mp hw).1
      have hh : history[i]? = some history[i] := List.getElem?_eq_getElem hi
      have hfits := hst.workers i _ w hh hw
      have hanswers := hends _ (List.getElem_mem hi)
      have hsum := fun w' : Worker ι ο σ => sum_map_set (Worker.left model computeInfo) hw w'
      -- nothing is sent
      have hquiet : ∀ {w'}, w'.left model computeInfo < w.left model computeInfo →
          (st.setWorker i w').measure model computeInfo < st.measure model computeInfo := by
        intro w' hlt
        have hset := hsum w'
        show ((st.workers.set i w').map _).sum + st.results.length + st.pc.left <
          (st.workers.map _).sum + st.results.length + st.pc.left
        omega
      rw [hw] at hstep
      cases w with
      | starting s =>
          obtain rfl : s = history[i] := hfits
          obtain ⟨ok, l, C, x₀, k, hsetup, -⟩ := hanswers
          simp only [hsetup, Option.some.injEq] at hstep
          subst hstep
          have hleft : (Worker.starting history[i]).left model computeInfo = C.left x₀ + 5 := by
            unfold Worker.left
            simp only [hsetup]
          refine hquiet ?_
          rw [hleft]
          exact Nat.lt_succ_self _
      | running C x =>
          obtain ⟨x₀, hsetup, hgoes⟩ := hfits
          obtain ⟨ok, l, C', x₀', k, hsetup', hends'⟩ := hanswers
          rw [hsetup] at hsetup'
          obtain ⟨rfl, rfl⟩ := Prod.mk.inj (Option.some.inj hsetup')
          obtain ⟨j, hj⟩ := hends'.of_goes hgoes
          have hx : C.left x = j := Setup.left_eq hj
          obtain ⟨y, hy, hgoes'⟩ | ⟨ok', l', hr, -⟩ :=
            checkStep_cases st.kill hsetup hgoes ⟨ok, l, C, x₀, k, hsetup, hends'⟩
          · simp only [hy, Option.some.injEq] at hstep
            subst hstep
            -- an iteration that goes on has not been stopped
            have hfree : C.checkStep false x = some (.inl y) := by
              cases hkill : st.kill with
              | false => rwa [hkill] at hy
              | true =>
                  rw [hkill] at hy
                  rcases C.checkStep_killed x with hsame | hstop
                  · rwa [hsame] at hy
                  · rw [hstop] at hy
                    cases hy
            obtain ⟨j', rfl, hj'⟩ := hj.next hfree
            have hy : C.left y = j' := Setup.left_eq hj'
            refine hquiet ?_
            show C.left y + 4 < C.left x + 4
            omega
          · simp only [hr, Option.some.injEq] at hstep
            subst hstep
            refine hquiet ?_
            show 3 < C.left x + 4
            omega
      | returned ok l =>
          simp only [Option.some.injEq] at hstep
          subst hstep
          have hlt : (Worker.stored ok l : Worker ι ο σ).left model computeInfo <
              (Worker.returned ok l : Worker ι ο σ).left model computeInfo := Nat.lt_succ_self 2
          exact hquiet hlt
      | stored ok l =>
          simp only [Option.some.injEq] at hstep
          subst hstep
          have hset :
              ((st.workers.set i (.done ok l)).map _).sum + 2 = (st.workers.map _).sum + 0 :=
            hsum (.done ok l)
          show ((st.workers.set i (.done ok l)).map _).sum +
              (st.results ++ [ok]).length + st.pc.left <
            (st.workers.map _).sum + st.results.length + st.pc.left
          rw [List.length_append, List.length_singleton]
          omega
      | done ok l => cases hstep

/-- When the loop is left, little is left to do. -/
lemma MainPc.left_breakLoop (st : Par ι ο σ) : (st.breakLoop computeInfo).pc.left ≤ 1 := by
  unfold Par.breakLoop MainPc.left
  cases computeInfo with
  | true => simp
  | false => simp

/-- The main goroutine goes on. -/
lemma Par.measure_lt_of_main (hworkers : st'.workers = st.workers)
    (hlt : st'.results.length + st'.pc.left < st.results.length + st.pc.left) :
    st'.measure model computeInfo < st.measure model computeInfo := by
  unfold Par.measure
  rw [hworkers]
  omega

/-- Taking an answer uses it up. -/
lemma Par.receive_lt (hstep : st.receive history computeInfo = some st') :
    st'.measure model computeInfo < st.measure model computeInfo := by
  unfold Par.receive at hstep
  split at hstep
  · rename_i r results hpc hresults
    have hlen : st.results.length = results.length + 1 := by rw [hresults, List.length_cons]
    have hleft : st.pc.left = 2 := by rw [hpc]; rfl
    -- the place of the main goroutine does not go up
    have hlt : ∀ {w : Par ι ο σ}, w.workers = st.workers → w.results = results → w.pc.left ≤ 2 →
        w.measure model computeInfo < st.measure model computeInfo := by
      intro w hworkers hresults' hpc'
      refine measure_lt_of_main hworkers ?_
      rw [hresults']
      omega
    simp only at hstep
    split_ifs at hstep
    · obtain rfl := Option.some.inj hstep
      exact hlt rfl rfl ((MainPc.left_breakLoop _).trans one_le_two)
    · obtain rfl := Option.some.inj hstep
      exact hlt rfl rfl ((MainPc.left_breakLoop _).trans one_le_two)
    · obtain rfl := Option.some.inj hstep
      exact hlt rfl rfl hleft.le
  · rename_i r results hpc hresults
    split_ifs at hstep
    obtain rfl := Option.some.inj hstep
    refine measure_lt_of_main rfl ?_
    rw [hresults, List.length_cons]
    show results.length + st.pc.left < _
    omega
  · cases hstep

/-- **Every step uses something up.** -/
lemma Par.Inv.measure_lt {a : ParAction} (hst : st.Inv model history computeInfo timeout)
    (hcheck : ∀ h ∈ history, Checkable model computeInfo h)
    (hstep : (parallel model history computeInfo timeout).step st a = some st') :
    st'.measure model computeInfo < st.measure model computeInfo := by
  rw [hst.step_eq] at hstep
  cases a with
  | work i => exact hst.work_lt (fun h hh => (hcheck h hh).ends) hstep
  | receive => exact receive_lt hstep
  | timeout =>
      have hstep : st.timeUp computeInfo timeout = some st' := hstep
      unfold Par.timeUp at hstep
      split at hstep
      · rename_i hpc
        split_ifs at hstep
        obtain rfl := Option.some.inj hstep
        refine measure_lt_of_main rfl (Nat.add_lt_add_left ?_ _)
        rw [hpc]
        exact (MainPc.left_breakLoop _).trans_lt one_lt_two
      · cases hstep
  | collect orders =>
      have hstep : st.collect history orders = some st' := hstep
      unfold Par.collect at hstep
      split at hstep
      · rename_i hpc
        split_ifs at hstep with hcond
        obtain ⟨partials, hpartials, -⟩ :=
          hst.exists_info hcheck (hst.waiting hpc) hcond.1 hcond.2
        rw [hpartials] at hstep
        obtain rfl := Option.some.inj hstep
        refine measure_lt_of_main rfl (Nat.add_lt_add_left ?_ _)
        rw [hpc]
        exact Nat.one_pos
      · cases hstep

/-- A run is not longer than what there is to do. -/
lemma Par.length_add_measure_le {tr : List (Par ι ο σ × ParAction)}
    (hcheck : ∀ h ∈ history, Checkable model computeInfo h)
    (hrun : (parallel model history computeInfo timeout).Run tr st) :
    tr.length + st.measure model computeInfo ≤
      (parallel model history computeInfo timeout).init.measure model computeInfo := by
  induction hrun with
  | init => simp
  | step hrun hstep ih =>
      have hlt := (Par.Inv.of_run hcheck hrun).measure_lt hcheck hstep
      rw [List.length_cons]
      omega

/-! ## Progress -/

/-- A goroutine that is not done can go on. -/
lemma Par.exists_work (model : FullModel ι ο σ) (computeInfo : Bool) {i : ℕ} {w : Worker ι ο σ}
    (hw : st.workers[i]? = some w) (hdone : ∀ ok l, w ≠ .done ok l) :
    ∃ st', st.work model computeInfo i = some st' := by
  unfold Par.work
  rw [hw]
  cases w with
  | starting s =>
      simp only
      split
      · exact ⟨_, rfl⟩
      · exact ⟨_, rfl⟩
  | running C x =>
      simp only
      split
      · exact ⟨_, rfl⟩
      · exact ⟨_, rfl⟩
      · exact ⟨_, rfl⟩
  | returned ok l => exact ⟨_, rfl⟩
  | stored ok l => exact ⟨_, rfl⟩
  | done ok l => exact absurd rfl (hdone ok l)

/-- When all goroutines are done, the answers that have not been taken are in the channel. -/
lemma Par.Inv.results_ne_nil (hst : st.Inv model history computeInfo timeout)
    (hdone : ∀ w ∈ st.workers, ∃ ok l, w = .done ok l) (hcount : st.count < history.length) :
    ∃ r results, st.results = r :: results := by
  obtain ⟨taken, htaken, hperm, -⟩ := hst.answers
  have hall : (st.workers.filterMap Worker.sent).length = st.workers.length := by
    rw [List.filterMap_length_eq_length]
    intro w hw
    obtain ⟨ok, l, rfl⟩ := hdone w hw
    rfl
  have hlength := hperm.length_eq
  rw [List.length_append, hall, hst.length] at hlength
  refine List.exists_cons_of_ne_nil fun hnil => ?_
  rw [hnil, List.length_nil] at hlength
  omega

/-- An answer in the channel can be taken. -/
lemma Par.exists_receive (computeInfo : Bool) {r : Bool} {results : List Bool}
    (hresults : st.results = r :: results)
    (hpc : st.pc = .selecting ∨ st.pc = .waiting ∧ st.count < history.length) :
    ∃ st', st.receive history computeInfo = some st' := by
  unfold Par.receive
  rcases hpc with hpc | ⟨hpc, hcount⟩
  · rw [hpc, hresults]
    simp only
    split_ifs
    · exact ⟨_, rfl⟩
    · exact ⟨_, rfl⟩
    · exact ⟨_, rfl⟩
  · rw [hpc, hresults]
    simp only [hcount, if_true]
    exact ⟨_, rfl⟩

/-- When all answers have been taken, the partial linearizations can be collected. -/
lemma Par.exists_collect (hpc : st.pc = .waiting) (hcount : history.length ≤ st.count) :
    ∃ orders st', st.collect history orders = some st' := by
  have horders : st.IsOrders ((List.range st.longest.length).map fun i =>
      (longestAt st.longest i).keys) := by
    refine ⟨by simp, fun i hi => ?_⟩
    have hi : i < st.longest.length := by simpa using hi
    simp [hi]
  refine ⟨(List.range st.longest.length).map fun i => (longestAt st.longest i).keys, ?_⟩
  unfold Par.collect
  rw [hpc]
  simp only [hcount, horders, and_self, if_true]
  split
  · exact ⟨_, rfl⟩
  · exact ⟨_, rfl⟩

/-- **There is always a step to take**, and the timer is not needed. -/
lemma Par.Inv.progress (hst : st.Inv model history computeInfo timeout)
    (hne : history ≠ []) (hpc : ∀ r info, st.pc ≠ .returned r info) :
    ∃ a st', a ≠ ParAction.timeout ∧
      (parallel model history computeInfo timeout).step st a = some st' := by
  by_cases hdone : ∀ w ∈ st.workers, ∃ ok l, w = .done ok l
  · -- all answers have been sent
    have hreceive : st.count < history.length →
        (st.pc = .selecting ∨ st.pc = .waiting ∧ st.count < history.length) →
        ∃ a st', a ≠ ParAction.timeout ∧
          (parallel model history computeInfo timeout).step st a = some st' := by
      intro hcount hpc'
      obtain ⟨r, results, hresults⟩ := hst.results_ne_nil hdone hcount
      obtain ⟨st', hst'⟩ := exists_receive computeInfo hresults hpc'
      exact ⟨.receive, st', by simp, (hst.step_eq _).trans hst'⟩
    cases hpc' : st.pc with
    | selecting => exact hreceive ((hst.selecting hpc').2.2.resolve_left hne) (Or.inl hpc')
    | waiting =>
        by_cases hcount : st.count < history.length
        · exact hreceive hcount (Or.inr ⟨hpc', hcount⟩)
        · obtain ⟨orders, st', hst'⟩ := exists_collect hpc' (not_lt.mp hcount)
          exact ⟨.collect orders, st', by simp, (hst.step_eq _).trans hst'⟩
    | returned r info => exact absurd hpc' (hpc r info)
  · push Not at hdone
    obtain ⟨w, hw, hdone⟩ := hdone
    obtain ⟨i, hi⟩ := List.getElem?_of_mem hw
    obtain ⟨st', hst'⟩ := exists_work model computeInfo hi hdone
    exact ⟨.work i, st', by simp, (hst.step_eq _).trans hst'⟩

/-- **`checkParallel` returns** if there is a partition: there is a bound on the number of steps,
and as long as the main goroutine has not returned there is a step to take. -/
lemma parallel_returns (hcheck : ∀ h ∈ history, Checkable model computeInfo h)
    (hne : history ≠ []) : ∃ bound, ∀ tr st,
      (parallel model history computeInfo timeout).Run tr st → tr.length ≤ bound ∧
        ((∃ r info, st.pc = .returned r info) ∨ ∃ a st', a ≠ ParAction.timeout ∧
          (parallel model history computeInfo timeout).step st a = some st') := by
  refine ⟨(parallel model history computeInfo timeout).init.measure model computeInfo,
    fun tr st hrun => ⟨?_, ?_⟩⟩
  · exact (Nat.le_add_right _ _).trans (Par.length_add_measure_le hcheck hrun)
  · by_cases hpc : ∃ r info, st.pc = .returned r info
    · exact Or.inl hpc
    · push Not at hpc
      exact Or.inr ((Par.Inv.of_run hcheck hrun).progress hne hpc)

/-- **Without a partition and without a timeout, nothing ever happens.** -/
lemma parallel_stuck (htimeout : timeout ≤ 0) {tr : List (Par ι ο σ × ParAction)}
    (hrun : (parallel model [] computeInfo timeout).Run tr st) :
    st = (parallel model [] computeInfo timeout).init := by
  induction hrun with
  | init => rfl
  | @step _ _ _ a _ hstep ih =>
      rw [ih] at hstep
      cases a with
      | work i => cases hstep
      | receive => cases hstep
      | timeout =>
          have hstep : (if 0 < timeout then _ else none) = some _ := hstep
          rw [if_neg (not_lt.mpr htimeout)] at hstep
          cases hstep
      | collect orders => cases hstep

end GoLabs.Porcupine
