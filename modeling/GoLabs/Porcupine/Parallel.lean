import GoLabs.Lib.Run
import GoLabs.Porcupine.CheckSingle

/-!
# `checkParallel`

`checkParallel` starts a goroutine for each partition of the history, which runs `checkSingle`,
stores its `longest` and sends the answer to a channel. Meanwhile the main goroutine takes the
answers from the channel. It leaves its loop when all have come in, when one is no (unless it has to
compute what can be linearized), or when the time is up, and in the last two cases sets the flag
`kill` that all searches read.

A step of `parallel` is an iteration of one of the searches, one operation on the channel or on
`longest`, or the timer, in any order. The flag is read in every iteration. A panic of a goroutine
ends the program: `crashed`.

`Par.Inv` says what every goroutine has got to. While the main goroutine is in its loop the flag is
not set, so the answers that count towards its result are those of whole searches
(`Par.Inv.answer`). From this it follows what each result means, in every interleaving:
`Par.Inv.meaning`.
-/

namespace GoLabs.Porcupine

open GoLabs.Lib

variable {ι ο σ : Type}

/-! ## State -/

/-- Source: `model.go` `CheckResult` -/
inductive CheckResult
  /-- Timed out -/
  | unknown
  | ok
  | illegal
  deriving DecidableEq

/-- Source: `checker.go` `linearizationInfo` -/
structure LinearizationInfo (ι ο : Type) where
  history : List (List (Entry ι ο))
  partialLinearizations : List (List (List ℕ))

/-- Where the goroutine of a partition is. -/
inductive Worker (ι ο σ : Type)
  /-- Before `checkSingle` -/
  | starting (subhistory : List (Entry ι ο))
  /-- In the loop of `checkSingle` -/
  | running (C : Setup ι ο σ) (x : CheckState σ)
  /-- Before `longest[i] = l` -/
  | returned (ok : Bool) (l : Longest)
  /-- Before `results <- ok` -/
  | stored (ok : Bool) (l : Longest)
  | done (ok : Bool) (l : Longest)

/-- Where the main goroutine is. -/
inductive MainPc (ι ο : Type)
  /-- In its loop -/
  | selecting
  /-- Behind the loop, with `computeInfo` -/
  | waiting
  | returned (result : CheckResult) (info : LinearizationInfo ι ο)

/-- The variables of `checkParallel` and its goroutines. -/
structure Par (ι ο σ : Type) where
  workers : List (Worker ι ο σ)
  /-- The channel, which has room for all answers. -/
  results : List Bool
  longest : List (Option Longest)
  kill : Bool
  ok : Bool
  timedOut : Bool
  count : ℕ
  pc : MainPc ι ο
  crashed : Bool

/-- What can happen next. -/
inductive ParAction
  /-- The goroutine of the partition `i` goes on. -/
  | work (i : ℕ)
  /-- `<-results` -/
  | receive
  /-- `<-timeoutChan` -/
  | timeout
  /-- The partial linearizations are collected. For each partition, `orders` has the order in which
  Go goes through the keys of `set`. -/
  | collect (orders : List (List ℕ))

/-! ## Steps -/

namespace Par

/-- `workers[i] = w` -/
def setWorker (st : Par ι ο σ) (i : ℕ) (w : Worker ι ο σ) : Par ι ο σ :=
  { st with workers := st.workers.set i w }

/-- A step of the goroutine of the partition `i`. -/
def work (model : FullModel ι ο σ) (computeInfo : Bool) (st : Par ι ο σ) (i : ℕ) :
    Option (Par ι ο σ) :=
  match st.workers[i]? with
  | none => none
  | some (.starting subhistory) =>
      match checkSetup model subhistory computeInfo with
      | none => some { st with crashed := true }
      | some (C, x) => some (st.setWorker i (.running C x))
  | some (.running C x) =>
      match C.checkStep st.kill x with
      | none => some { st with crashed := true }
      | some (.inl y) => some (st.setWorker i (.running C y))
      | some (.inr (ok, l)) => some (st.setWorker i (.returned ok l))
  | some (.returned ok l) =>
      some { st.setWorker i (.stored ok l) with longest := st.longest.set i (some l) }
  | some (.stored ok l) =>
      some { st.setWorker i (.done ok l) with results := st.results ++ [ok] }
  | some (.done _ _) => none

/-- What is returned. -/
def result (st : Par ι ο σ) : CheckResult :=
  if st.ok = false then .illegal else if st.timedOut then .unknown else .ok

/-- `break loop`: without `computeInfo` there is nothing left to do but to return. -/
def breakLoop (computeInfo : Bool) (st : Par ι ο σ) : Par ι ο σ :=
  { st with pc := if computeInfo then .waiting else .returned st.result ⟨[], []⟩ }

/-- The main goroutine takes an answer from the channel. -/
def receive (history : List (List (Entry ι ο))) (computeInfo : Bool) (st : Par ι ο σ) :
    Option (Par ι ο σ) :=
  match st.pc, st.results with
  | .selecting, r :: results =>
      let st := { st with results := results, count := st.count + 1, ok := st.ok && r }
      if !st.ok && !computeInfo then some (breakLoop computeInfo { st with kill := true })
      else if history.length ≤ st.count then some (breakLoop computeInfo st)
      else some st
  | .waiting, _ :: results =>
      if st.count < history.length then
        some { st with results := results, count := st.count + 1 }
      else none
  | _, _ => none

/-- The time is up. Without a timeout, nothing comes from `timeoutChan`. -/
def timeUp (computeInfo : Bool) (timeout : ℤ) (st : Par ι ο σ) : Option (Par ι ο σ) :=
  match st.pc with
  | .selecting =>
      if 0 < timeout then
        some (breakLoop computeInfo { st with timedOut := true, kill := true })
      else none
  | _ => none

end Par

/-- The keys of the map `set`, which makes the pointers of `longest` unique. -/
def Longest.keys (l : Longest) : List ℕ := (l.pointers.filterMap id).dedup

/-- The partial linearizations of a partition, in the order in which Go goes through the keys. -/
def Longest.partials (l : Longest) (order : List ℕ) : Option (List (List ℕ)) :=
  order.mapM fun k => l.seqs[k]?

/-- `longest[i]`, which is nil as long as the goroutine has not stored it. -/
def longestAt (longest : List (Option Longest)) (i : ℕ) : Longest :=
  (longest[i]?.join).getD ⟨[], []⟩

namespace Par

/-- An order for each of the maps. -/
def IsOrders (st : Par ι ο σ) (orders : List (List ℕ)) : Prop :=
  orders.length = st.longest.length ∧
    ∀ i < orders.length, (orders.getD i []).Perm (longestAt st.longest i).keys

instance decidableIsOrders (st : Par ι ο σ) (orders : List (List ℕ)) :
    Decidable (st.IsOrders orders) :=
  inferInstanceAs (Decidable (_ ∧ ∀ i < orders.length, List.Perm _ _))

/-- All answers have come in, and the partial linearizations are returned. -/
def collect (history : List (List (Entry ι ο))) (st : Par ι ο σ) (orders : List (List ℕ)) :
    Option (Par ι ο σ) :=
  match st.pc with
  | .waiting =>
      if history.length ≤ st.count ∧ st.IsOrders orders then
        match (List.range orders.length).mapM fun i =>
            (longestAt st.longest i).partials (orders.getD i []) with
        | none => some { st with crashed := true }
        | some partialLinearizations =>
            some { st with pc := .returned st.result ⟨history, partialLinearizations⟩ }
      else none
  | _ => none

/-- What an action does. -/
def act (model : FullModel ι ο σ) (history : List (List (Entry ι ο))) (computeInfo : Bool)
    (timeout : ℤ) (st : Par ι ο σ) : ParAction → Option (Par ι ο σ)
  | .work i => work model computeInfo st i
  | .receive => receive history computeInfo st
  | .timeout => timeUp computeInfo timeout st
  | .collect orders => collect history st orders

/-- One step. Nothing happens after a panic. -/
def step (model : FullModel ι ο σ) (history : List (List (Entry ι ο))) (computeInfo : Bool)
    (timeout : ℤ) (st : Par ι ο σ) (a : ParAction) : Option (Par ι ο σ) :=
  if st.crashed then none else act model history computeInfo timeout st a

end Par

/-- The goroutines have been started.
Source: `checker.go` `checkParallel` -/
def parallel (model : FullModel ι ο σ) (history : List (List (Entry ι ο))) (computeInfo : Bool)
    (timeout : ℤ) : System (Par ι ο σ) ParAction where
  init := {
    workers := history.map .starting
    results := []
    longest := List.replicate history.length none
    kill := false
    ok := true
    timedOut := false
    count := 0
    pc := .selecting
    crashed := false }
  step := Par.step model history computeInfo timeout

/-! ## The invariant -/

section Invariant

variable {model : FullModel ι ο σ} {history : List (List (Entry ι ο))} {computeInfo : Bool}
  {timeout : ℤ} {h : List (Entry ι ο)} {ok : Bool} {l : Longest}

/-- A search of the partition that is not stopped ends with this answer and this `longest`. -/
def Answers (model : FullModel ι ο σ) (computeInfo : Bool) (h : List (Entry ι ο)) (ok : Bool)
    (l : Longest) : Prop :=
  ∃ C x₀ k, checkSetup model h computeInfo = some (C, x₀) ∧
    EndsIn (C.checkStep false) k x₀ (ok, l)

/-- A search of the partition has this `longest` on the way. -/
def OnTheWay (model : FullModel ι ο σ) (computeInfo : Bool) (h : List (Entry ι ο)) (l : Longest) :
    Prop :=
  ∃ C x₀ w, checkSetup model h computeInfo = some (C, x₀) ∧ Goes (C.checkStep false) x₀ w ∧
    l = w.longest

/-- What `checkSingle` has returned: the answer, or no if it was stopped. -/
def Returned (model : FullModel ι ο σ) (computeInfo kill : Bool) (h : List (Entry ι ο)) (ok : Bool)
    (l : Longest) : Prop :=
  Answers model computeInfo h ok l ∨ kill = true ∧ ok = false ∧ OnTheWay model computeInfo h l

/-- What a goroutine has got to. -/
def Worker.Fits (model : FullModel ι ο σ) (computeInfo kill : Bool) (h : List (Entry ι ο)) :
    Worker ι ο σ → Prop
  | .starting subhistory => subhistory = h
  | .running C x => ∃ x₀, checkSetup model h computeInfo = some (C, x₀) ∧
      Goes (C.checkStep false) x₀ x
  | .returned ok l => Returned model computeInfo kill h ok l
  | .stored ok l => Returned model computeInfo kill h ok l
  | .done ok l => Returned model computeInfo kill h ok l

/-- A search has one answer. -/
lemma Answers.unique {ok' : Bool} {l' : Longest} (hok : Answers model computeInfo h ok l)
    (hok' : Answers model computeInfo h ok' l') : ok = ok' ∧ l = l' := by
  obtain ⟨C, x₀, k, hsetup, hends⟩ := hok
  obtain ⟨C', x₀', k', hsetup', hends'⟩ := hok'
  rw [hsetup] at hsetup'
  obtain ⟨rfl, rfl⟩ := Prod.mk.inj (Option.some.inj hsetup')
  have hloop := hends.loop_eq (Nat.lt_succ_of_le (le_max_left k k'))
  rw [hends'.loop_eq (Nat.lt_succ_of_le (le_max_right k k'))] at hloop
  obtain ⟨rfl, rfl⟩ := Prod.mk.inj (Option.some.inj hloop)
  exact ⟨rfl, rfl⟩

/-- What a goroutine may do, it may do when the searches are told to stop. -/
lemma Worker.Fits.mono {w : Worker ι ο σ} {kill : Bool} (hw : w.Fits model computeInfo kill h) :
    w.Fits model computeInfo true h := by
  have hmono : ∀ {ok l}, Returned model computeInfo kill h ok l →
      Returned model computeInfo true h ok l := by
    intro ok l hr
    exact hr.imp_right fun hstop => ⟨rfl, hstop.2⟩
  cases w with
  | starting s => exact hw
  | running C x => exact hw
  | returned ok l => exact hmono hw
  | stored ok l => exact hmono hw
  | done ok l => exact hmono hw

/-- What a goroutine has sent. -/
def Worker.sent : Worker ι ο σ → Option Bool
  | .done ok _ => some ok
  | _ => none

/-- What a goroutine has stored in `longest`. -/
def Worker.kept : Worker ι ο σ → Option Longest
  | .stored _ l => some l
  | .done _ l => some l
  | _ => none

/-- What the main goroutine knows when it has left its loop. -/
def Par.Settled (model : FullModel ι ο σ) (history : List (List (Entry ι ο))) (computeInfo : Bool)
    (st : Par ι ο σ) : Prop :=
  (st.ok = false → ∃ h ∈ history, ∃ l, Answers model computeInfo h false l) ∧
  (st.ok = true → st.timedOut = false → ∀ h ∈ history, ∃ l, Answers model computeInfo h true l)

/-- The partial linearizations that are returned are those of the sequences that `longest` points to
in the end, one list for each partition. -/
def Par.InfoFits (model : FullModel ι ο σ) (history : List (List (Entry ι ο)))
    (computeInfo kill : Bool) (info : LinearizationInfo ι ο) : Prop :=
  info.history = history ∧ info.partialLinearizations.length = history.length ∧
    ∀ (i : ℕ) h, history[i]? = some h → ∃ ok l order, Returned model computeInfo kill h ok l ∧
      order.Perm l.keys ∧ info.partialLinearizations[i]? = l.partials order

/-- The invariant of `checkParallel`. -/
structure Par.Inv (model : FullModel ι ο σ) (history : List (List (Entry ι ο)))
    (computeInfo : Bool) (timeout : ℤ) (st : Par ι ο σ) : Prop where
  crashed : st.crashed = false
  length : st.workers.length = history.length
  workers : ∀ (i : ℕ) h w, history[i]? = some h → st.workers[i]? = some w →
    w.Fits model computeInfo st.kill h
  longest_length : st.longest.length = history.length
  longest : ∀ (i : ℕ) w, st.workers[i]? = some w → st.longest[i]? = some w.kept
  /-- What has been taken from the channel, and what it still has, are the answers sent. -/
  answers : ∃ taken : List Bool, taken.length = st.count ∧
    (taken ++ st.results).Perm (st.workers.filterMap Worker.sent) ∧
    (st.pc = .selecting → st.ok = taken.all id)
  selecting : st.pc = .selecting → st.kill = false ∧ st.timedOut = false ∧
    (history = [] ∨ st.count < history.length)
  waiting : st.pc = .waiting → computeInfo = true
  settled : st.pc ≠ .selecting → st.Settled model history computeInfo
  timedOut : st.timedOut = true → 0 < timeout
  /-- With `computeInfo`, only the timer sets the flag. -/
  kill : computeInfo = true → st.kill = true → st.timedOut = true
  result : ∀ r info, st.pc = .returned r info → r = st.result ∧
    (computeInfo = true → Par.InfoFits model history computeInfo st.kill info)

/-- One element of a list is replaced. -/
lemma filterMap_set_perm {α β : Type} {f : α → Option β} {as : List α} {i : ℕ} {a b : α}
    (ha : as[i]? = some a) (hf : f a = none) :
    ((as.set i b).filterMap f).Perm ((f b).toList ++ as.filterMap f) := by
  induction as generalizing i with
  | nil => cases ha
  | cons c as ih =>
      cases i with
      | zero =>
          obtain rfl : c = a := by simpa using ha
          cases hb : f b with
          | none => simp [hf, hb]
          | some v => simp [hf, hb]
      | succ i =>
          have ih := ih (i := i) (by simpa using ha)
          cases hc : f c with
          | none => simpa [hc] using ih
          | some v =>
              simp only [List.set_cons_succ, List.filterMap_cons, hc]
              exact (ih.cons v).trans List.perm_middle.symm

/-- The invariant holds at the start. -/
lemma Par.Inv.init : Par.Inv model history computeInfo timeout
    (parallel model history computeInfo timeout).init where
  crashed := rfl
  length := List.length_map _
  workers := by
    intro i h w hh hw
    have hw : (history.map Worker.starting)[i]? = some w := hw
    rw [List.getElem?_map, hh] at hw
    obtain rfl := Option.some.inj hw
    rfl
  longest_length := List.length_replicate
  longest := by
    intro i w hw
    have hw : (history.map Worker.starting)[i]? = some w := hw
    rw [List.getElem?_map, Option.map_eq_some_iff] at hw
    obtain ⟨h, hh, rfl⟩ := hw
    show (List.replicate _ _)[i]? = _
    rw [List.getElem?_replicate, if_pos (List.getElem?_eq_some_iff.mp hh).1]
    rfl
  answers := by
    refine ⟨[], rfl, ?_, fun _ => rfl⟩
    have hsent : (history.map (Worker.starting : _ → Worker ι ο σ)).filterMap Worker.sent = [] := by
      rw [List.filterMap_map, List.filterMap_eq_nil_iff]
      intro h _
      rfl
    show ([] : List Bool).Perm ((history.map Worker.starting).filterMap Worker.sent)
    rw [hsent]
  selecting _ := by
    refine ⟨rfl, rfl, ?_⟩
    cases history with
    | nil => exact Or.inl rfl
    | cons h history => exact Or.inr (Nat.succ_pos _)
  waiting hpc := by cases hpc
  settled hpc := absurd rfl hpc
  timedOut hout := by cases hout
  kill _ hkill := by cases hkill
  result _ _ hpc := by cases hpc

variable {st st' : Par ι ο σ} {i : ℕ} {w w' : Worker ι ο σ}

/-- A goroutine goes on: it may store and send something, and the others are as they were. -/
lemma Par.Inv.setWorker (hst : st.Inv model history computeInfo timeout)
    (hw : st.workers[i]? = some w) (hsent : w.sent = none)
    (hfits : ∀ h, history[i]? = some h → w'.Fits model computeInfo st.kill h)
    (hlength : st'.longest.length = st.longest.length)
    (hkept : st'.longest[i]? = some w'.kept)
    (hother : ∀ j, j ≠ i → st'.longest[j]? = st.longest[j]?)
    (hst' : st' = { st with
      workers := st.workers.set i w'
      longest := st'.longest
      results := st.results ++ w'.sent.toList }) :
    st'.Inv model history computeInfo timeout := by
  have hi : i < st.workers.length := (List.getElem?_eq_some_iff.mp hw).1
  have hget : ∀ j v, st'.workers[j]? = some v →
      j = i ∧ v = w' ∨ j ≠ i ∧ st.workers[j]? = some v := by
    intro j v hv
    rw [hst'] at hv
    have hv : (st.workers.set i w')[j]? = some v := hv
    by_cases hj : j = i
    · subst hj
      rw [List.getElem?_set_self hi] at hv
      exact Or.inl ⟨rfl, (Option.some.inj hv).symm⟩
    · rw [List.getElem?_set_ne (Ne.symm hj)] at hv
      exact Or.inr ⟨hj, hv⟩
  have hkill : st'.kill = st.kill := by rw [hst']
  have hpc : st'.pc = st.pc := by rw [hst']
  obtain ⟨taken, hcount, hperm, hok⟩ := hst.answers
  refine ⟨?_, ?_, ?_, ?_, ?_, ⟨taken, ?_, ?_, ?_⟩, ?_, ?_, ?_, ?_, ?_, ?_⟩
  · rw [hst']
    exact hst.crashed
  · rw [hst']
    exact List.length_set.trans hst.length
  · intro j h v hh hv
    rw [hkill]
    obtain ⟨rfl, rfl⟩ | ⟨-, hv⟩ := hget j v hv
    · exact hfits h hh
    · exact hst.workers j h v hh hv
  · exact hlength.trans hst.longest_length
  · intro j v hv
    obtain ⟨rfl, rfl⟩ | ⟨hj, hv⟩ := hget j v hv
    · exact hkept
    · rw [hother j hj]
      exact hst.longest j v hv
  · rw [hst']
    exact hcount
  · rw [hst']
    show (taken ++ (st.results ++ w'.sent.toList)).Perm
      ((st.workers.set i w').filterMap Worker.sent)
    refine List.Perm.trans ?_ (filterMap_set_perm hw hsent).symm
    rw [← List.append_assoc]
    exact List.perm_append_comm.trans (hperm.append_left _)
  · rw [hst']
    exact hok
  · rw [hpc, hkill, hst']
    exact hst.selecting
  · rw [hpc]
    exact hst.waiting
  · rw [hpc]
    intro hne
    rw [hst']
    exact hst.settled hne
  · rw [hst']
    exact hst.timedOut
  · rw [hst']
    exact hst.kill
  · rw [hst']
    exact hst.result

/-- A search that is on its way does not panic. -/
lemma checkStep_cases {C : Setup ι ο σ} {x x₀ : CheckState σ} (kill : Bool)
    (hsetup : checkSetup model h computeInfo = some (C, x₀)) (hgoes : Goes (C.checkStep false) x₀ x)
    (hends : ∃ ok l, Answers model computeInfo h ok l) :
    (∃ y, C.checkStep kill x = some (.inl y) ∧ Goes (C.checkStep false) x₀ y) ∨
      ∃ ok l, C.checkStep kill x = some (.inr (ok, l)) ∧
        Returned model computeInfo kill h ok l := by
  obtain ⟨ok, l, C', x₀', k, hsetup', hends⟩ := hends
  rw [hsetup] at hsetup'
  obtain ⟨rfl, rfl⟩ := Prod.mk.inj (Option.some.inj hsetup')
  obtain ⟨j, hj⟩ := hends.of_goes hgoes
  -- the iteration as it is without the flag
  have hfree : (∃ y, C.checkStep false x = some (.inl y) ∧ Goes (C.checkStep false) x₀ y) ∨
      C.checkStep false x = some (.inr (ok, l)) := by
    cases hstep : C.checkStep false x with
    | none => exact absurd hstep hj.ne_none
    | some r =>
        cases r with
        | inl y => exact Or.inl ⟨y, rfl, hgoes.tail hstep⟩
        | inr r =>
            rw [hj.result hstep]
            exact Or.inr rfl
  have hanswers : Returned model computeInfo kill h ok l := Or.inl ⟨C, x₀, k, hsetup, hends⟩
  cases kill with
  | false => exact hfree.imp_right fun hstep => ⟨ok, l, hstep, hanswers⟩
  | true =>
      rcases C.checkStep_killed x with hsame | hstop
      · rw [hsame]
        exact hfree.imp_right fun hstep => ⟨ok, l, hstep, hanswers⟩
      · exact Or.inr ⟨false, x.longest, hstop, Or.inr ⟨rfl, rfl, C, x₀, x, hsetup, hgoes, rfl⟩⟩

/-- **A step of a goroutine keeps the invariant.** -/
lemma Par.Inv.work (hst : st.Inv model history computeInfo timeout)
    (hends : ∀ h ∈ history, ∃ ok l, Answers model computeInfo h ok l)
    (hstep : st.work model computeInfo i = some st') :
    st'.Inv model history computeInfo timeout := by
  unfold Par.work at hstep
  cases hw : st.workers[i]? with
  | none =>
      rw [hw] at hstep
      cases hstep
  | some w =>
      have hi : i < history.length := hst.length ▸ (List.getElem?_eq_some_iff.mp hw).1
      have hh : history[i]? = some history[i] := List.getElem?_eq_getElem hi
      have hfits := hst.workers i _ w hh hw
      have hanswers := hends _ (List.getElem_mem hi)
      have hkept := hst.longest i w hw
      -- nothing is stored or sent
      have hquiet : ∀ {w'}, w.sent = none → w'.sent = none → w'.kept = w.kept →
          (∀ h, history[i]? = some h → w'.Fits model computeInfo st.kill h) →
          (st.setWorker i w').Inv model history computeInfo timeout := by
        intro w' hsent hsent' hkept' hfits'
        refine hst.setWorker hw hsent hfits' rfl ?_ (fun _ _ => rfl) ?_
        · rw [hkept']
          exact hkept
        · rw [hsent', Option.toList_none, List.append_nil]
          rfl
      have hhere : ∀ {w' : Worker ι ο σ}, w'.Fits model computeInfo st.kill history[i] →
          ∀ h, history[i]? = some h → w'.Fits model computeInfo st.kill h := by
        intro w' hw' h hh'
        rw [hh] at hh'
        rw [← Option.some.inj hh']
        exact hw'
      rw [hw] at hstep
      cases w with
      | starting s =>
          obtain rfl : s = history[i] := hfits
          obtain ⟨ok, l, C, x₀, k, hsetup, -⟩ := hanswers
          simp only [hsetup, Option.some.injEq] at hstep
          subst hstep
          exact hquiet rfl rfl rfl (hhere ⟨x₀, hsetup, Relation.ReflTransGen.refl⟩)
      | running C x =>
          obtain ⟨x₀, hsetup, hgoes⟩ := hfits
          obtain ⟨y, hy, hgoes'⟩ | ⟨ok, l, hr, hreturned⟩ :=
            checkStep_cases st.kill hsetup hgoes hanswers
          · simp only [hy, Option.some.injEq] at hstep
            subst hstep
            exact hquiet rfl rfl rfl (hhere ⟨x₀, hsetup, hgoes'⟩)
          · simp only [hr, Option.some.injEq] at hstep
            subst hstep
            exact hquiet rfl rfl rfl (hhere hreturned)
      | returned ok l =>
          simp only [Option.some.injEq] at hstep
          subst hstep
          have hlt : i < st.longest.length := hst.longest_length ▸ hi
          have hfits' : (Worker.stored ok l).Fits model computeInfo st.kill history[i] := hfits
          refine hst.setWorker hw rfl (hhere hfits') List.length_set ?_ ?_ ?_
          · exact List.getElem?_set_self hlt
          · intro j hj
            exact List.getElem?_set_ne (Ne.symm hj)
          · simp [Par.setWorker, Worker.sent]
      | stored ok l =>
          simp only [Option.some.injEq] at hstep
          subst hstep
          have hfits' : (Worker.done ok l).Fits model computeInfo st.kill history[i] := hfits
          exact hst.setWorker hw rfl (hhere hfits') rfl hkept (fun _ _ => rfl) rfl
      | done ok l => cases hstep

/-! ## The main goroutine -/

/-- As long as the flag is not set, what has been sent are the answers of whole searches. -/
lemma Par.Inv.answer (hst : st.Inv model history computeInfo timeout) (hkill : st.kill = false)
    (hw : st.workers[i]? = some w) (hh : history[i]? = some h) {b : Bool}
    (hb : w.sent = some b) : ∃ l, Answers model computeInfo h b l := by
  have hfits := hst.workers i h w hh hw
  cases w with
  | done ok l =>
      obtain rfl : ok = b := Option.some.inj hb
      rcases hfits with hanswers | ⟨hkilled, -⟩
      · exact ⟨l, hanswers⟩
      · rw [hkill] at hkilled
        cases hkilled
  | starting _ => cases hb
  | running _ _ => cases hb
  | returned _ _ => cases hb
  | stored _ _ => cases hb

/-- What the main goroutine knows when it leaves its loop with the answers `taken`: it has them all,
unless one of them is no or the time is up. -/
lemma Par.Inv.settled_of (hst : st.Inv model history computeInfo timeout)
    (hkill : st.kill = false) {taken results : List Bool}
    (hperm : (taken ++ results).Perm (st.workers.filterMap Worker.sent))
    (hok : st'.ok = taken.all id)
    (hall : st'.ok = true → st'.timedOut = false → history.length ≤ taken.length) :
    st'.Settled model history computeInfo := by
  constructor
  · intro hfalse
    rw [hok, List.all_eq_false] at hfalse
    obtain ⟨b, hb, hbfalse⟩ := hfalse
    have hb' : b ∈ st.workers.filterMap Worker.sent :=
      hperm.subset (List.mem_append_left _ hb)
    obtain ⟨w, hw, hsent⟩ := List.mem_filterMap.mp hb'
    obtain ⟨j, hj⟩ := List.getElem?_of_mem hw
    have hlt : j < history.length := hst.length ▸ (List.getElem?_eq_some_iff.mp hj).1
    obtain ⟨l, hl⟩ := hst.answer hkill hj (List.getElem?_eq_getElem hlt) hsent
    obtain rfl : b = false := by simpa using hbfalse
    exact ⟨_, List.getElem_mem hlt, l, hl⟩
  · intro htrue hout h hmem
    -- all goroutines have sent their answer, and all answers have been taken
    have hlength := hperm.length_eq
    have hle := List.length_filterMap_le Worker.sent st.workers
    rw [List.length_append] at hlength
    rw [hst.length] at hle
    have htaken := hall htrue hout
    have hnil : results = [] := List.length_eq_zero_iff.mp (by omega)
    have hsome : ∀ w ∈ st.workers, (Worker.sent w).isSome = true := by
      rw [← List.filterMap_length_eq_length, hst.length]
      omega
    obtain ⟨j, hj⟩ := List.getElem?_of_mem hmem
    have hlt : j < st.workers.length := hst.length ▸ (List.getElem?_eq_some_iff.mp hj).1
    obtain ⟨b, hb⟩ := Option.isSome_iff_exists.mp (hsome _ (List.getElem_mem hlt))
    have hbtaken : b ∈ taken := by
      have hmem := hperm.symm.subset (List.mem_filterMap.mpr ⟨_, List.getElem_mem hlt, hb⟩)
      rwa [hnil, List.append_nil] at hmem
    rw [hok, List.all_eq_true] at htrue
    obtain rfl : b = true := htrue b hbtaken
    exact hst.answer hkill (List.getElem?_eq_getElem hlt) hj hb

/-- A step of the main goroutine leaves the others as they were. -/
lemma Par.Inv.main (hst : st.Inv model history computeInfo timeout)
    (hworkers : st'.workers = st.workers) (hlongest : st'.longest = st.longest)
    (hcrashed : st'.crashed = st.crashed) (hkill : st'.kill = st.kill ∨ st'.kill = true)
    (hanswers : ∃ taken : List Bool, taken.length = st'.count ∧
      (taken ++ st'.results).Perm (st.workers.filterMap Worker.sent) ∧
      (st'.pc = .selecting → st'.ok = taken.all id))
    (hselecting : st'.pc = .selecting → st'.kill = false ∧ st'.timedOut = false ∧
      (history = [] ∨ st'.count < history.length))
    (hwaiting : st'.pc = .waiting → computeInfo = true)
    (hsettled : st'.pc ≠ .selecting → st'.Settled model history computeInfo)
    (hout : st'.timedOut = true → 0 < timeout)
    (hkillout : computeInfo = true → st'.kill = true → st'.timedOut = true)
    (hresult : ∀ r info, st'.pc = .returned r info → r = st'.result ∧
      (computeInfo = true → Par.InfoFits model history computeInfo st'.kill info)) :
    st'.Inv model history computeInfo timeout := by
  refine ⟨hcrashed.trans hst.crashed, hworkers ▸ hst.length, ?_, hlongest ▸ hst.longest_length, ?_,
    hworkers ▸ hanswers, hselecting, hwaiting, hsettled, hout, hkillout, hresult⟩
  · intro j h v hh hv
    rw [hworkers] at hv
    have hfits := hst.workers j h v hh hv
    rcases hkill with hkill | hkill
    · rw [hkill]
      exact hfits
    · rw [hkill]
      exact hfits.mono
  · intro j v hv
    rw [hworkers] at hv
    rw [hlongest]
    exact hst.longest j v hv

/-- Behind the loop, the main goroutine is no longer in it. -/
lemma Par.breakLoop_ne (st : Par ι ο σ) : (st.breakLoop computeInfo).pc ≠ .selecting := by
  unfold Par.breakLoop
  cases computeInfo with
  | true => simp
  | false => simp

/-- It waits only with `computeInfo`. -/
lemma Par.breakLoop_waiting (st : Par ι ο σ) (hpc : (st.breakLoop computeInfo).pc = .waiting) :
    computeInfo = true := by
  unfold Par.breakLoop at hpc
  cases computeInfo with
  | true => rfl
  | false => cases hpc

/-- Without `computeInfo` it has returned, and there is no information. -/
lemma Par.breakLoop_result (st : Par ι ο σ) (kill : Bool) :
    ∀ r info, (st.breakLoop computeInfo).pc = .returned r info →
      r = (st.breakLoop computeInfo).result ∧
      (computeInfo = true → Par.InfoFits model history computeInfo kill info) := by
  intro r info hpc
  unfold Par.breakLoop at hpc
  cases computeInfo with
  | true => simp at hpc
  | false =>
      obtain ⟨rfl, -⟩ := MainPc.returned.inj hpc
      exact ⟨rfl, fun hinfo => by cases hinfo⟩

/-- **Taking an answer keeps the invariant.** -/
lemma Par.Inv.receive (hst : st.Inv model history computeInfo timeout)
    (hstep : st.receive history computeInfo = some st') :
    st'.Inv model history computeInfo timeout := by
  obtain ⟨taken, hcount, hperm, hok⟩ := hst.answers
  unfold Par.receive at hstep
  split at hstep
  · rename_i r results hpc hresults
    obtain ⟨hkill, hnotout, hcountlt⟩ := hst.selecting hpc
    have hok' : (st.ok && r) = (taken ++ [r]).all id := by
      rw [hok hpc, List.all_append]
      simp
    have hperm' : ((taken ++ [r]) ++ results).Perm (st.workers.filterMap Worker.sent) := by
      rw [List.append_assoc, List.singleton_append, ← hresults]
      exact hperm
    have hlength : (taken ++ [r]).length = st.count + 1 := by simp [hcount]
    simp only at hstep
    split_ifs at hstep with hno hall
    · obtain rfl := Option.some.inj hstep
      rw [Bool.and_eq_true, Bool.not_eq_true', Bool.not_eq_true'] at hno
      refine hst.main rfl rfl rfl (Or.inr rfl) ⟨taken ++ [r], hlength, hperm', ?_⟩ ?_
        (breakLoop_waiting _) ?_ ?_ ?_ (breakLoop_result _ _)
      · exact fun hp => absurd hp (breakLoop_ne _)
      · exact fun hp => absurd hp (breakLoop_ne _)
      · refine fun _ => hst.settled_of hkill hperm' hok' fun htrue _ => ?_
        have htrue : (st.ok && r) = true := htrue
        rw [hno.1] at htrue
        cases htrue
      · exact hst.timedOut
      · intro hinfo
        rw [hno.2] at hinfo
        cases hinfo
    · obtain rfl := Option.some.inj hstep
      refine hst.main rfl rfl rfl (Or.inl rfl) ⟨taken ++ [r], hlength, hperm', ?_⟩ ?_
        (breakLoop_waiting _) ?_ ?_ ?_ (breakLoop_result _ _)
      · exact fun hp => absurd hp (breakLoop_ne _)
      · exact fun hp => absurd hp (breakLoop_ne _)
      · refine fun _ => hst.settled_of hkill hperm' hok' fun _ _ => ?_
        rw [hlength]
        exact hall
      · exact hst.timedOut
      · exact hst.kill
    · obtain rfl := Option.some.inj hstep
      refine hst.main rfl rfl rfl (Or.inl rfl) ⟨taken ++ [r], hlength, hperm', fun _ => hok'⟩ ?_
        hst.waiting ?_ hst.timedOut hst.kill ?_
      · exact fun _ => ⟨hkill, hnotout, Or.inr (not_le.mp hall)⟩
      · exact fun hp => absurd hpc hp
      · intro r' info hp
        have hp : st.pc = .returned r' info := hp
        rw [hpc] at hp
        cases hp
  · rename_i r results hpc hresults
    split_ifs at hstep with hlt
    obtain rfl := Option.some.inj hstep
    have hne : st.pc ≠ .selecting := by
      rw [hpc]
      simp
    have hperm' : ((taken ++ [r]) ++ results).Perm (st.workers.filterMap Worker.sent) := by
      rw [List.append_assoc, List.singleton_append, ← hresults]
      exact hperm
    refine hst.main rfl rfl rfl (Or.inl rfl) ⟨taken ++ [r], by simp [hcount], hperm', ?_⟩ ?_
      hst.waiting ?_ hst.timedOut hst.kill ?_
    · exact fun hp => absurd hp hne
    · exact fun hp => absurd hp hne
    · exact fun _ => hst.settled hne
    · intro r' info hp
      have hp : st.pc = .returned r' info := hp
      rw [hpc] at hp
      cases hp
  · cases hstep

/-- **The timer keeps the invariant.** -/
lemma Par.Inv.timeUp (hst : st.Inv model history computeInfo timeout)
    (hstep : st.timeUp computeInfo timeout = some st') :
    st'.Inv model history computeInfo timeout := by
  obtain ⟨taken, hcount, hperm, hok⟩ := hst.answers
  unfold Par.timeUp at hstep
  split at hstep
  · rename_i hpc
    obtain ⟨hkill, -, -⟩ := hst.selecting hpc
    split_ifs at hstep with htimeout
    obtain rfl := Option.some.inj hstep
    refine hst.main rfl rfl rfl (Or.inr rfl) ⟨taken, hcount, hperm, ?_⟩ ?_
      (breakLoop_waiting _) ?_ ?_ ?_ (breakLoop_result _ _)
    · exact fun hp => absurd hp (breakLoop_ne _)
    · exact fun hp => absurd hp (breakLoop_ne _)
    · refine fun _ => hst.settled_of hkill hperm (hok hpc) fun _ hout => ?_
      have hout : true = false := hout
      cases hout
    · exact fun _ => htimeout
    · exact fun _ _ => rfl
  · cases hstep

/-- When all answers have been taken, all goroutines are done. -/
lemma Par.Inv.all_done (hst : st.Inv model history computeInfo timeout)
    (hcount : history.length ≤ st.count) (hw : st.workers[i]? = some w) :
    ∃ ok l, w = .done ok l := by
  obtain ⟨taken, htaken, hperm, -⟩ := hst.answers
  have hlength := hperm.length_eq
  have hle := List.length_filterMap_le Worker.sent st.workers
  rw [List.length_append] at hlength
  rw [hst.length] at hle
  have hsome : ∀ w ∈ st.workers, (Worker.sent w).isSome = true := by
    rw [← List.filterMap_length_eq_length, hst.length]
    omega
  have hsent := hsome w (List.mem_of_getElem? hw)
  cases w with
  | done ok l => exact ⟨ok, l, rfl⟩
  | starting _ => cases hsent
  | running _ _ => cases hsent
  | returned _ _ => cases hsent
  | stored _ _ => cases hsent

/-- A partition can be checked: the search ends, and with `computeInfo` the pointers of `longest`
are those of sequences. -/
structure Checkable (model : FullModel ι ο σ) (computeInfo : Bool) (h : List (Entry ι ο)) :
    Prop where
  ends : ∃ ok l, Answers model computeInfo h ok l
  valid : computeInfo = true → ∀ {kill ok l}, Returned model computeInfo kill h ok l →
    ∀ k ∈ l.keys, k < l.seqs.length

/-- The partial linearizations of a partition can be collected in every order. -/
lemma Longest.exists_partials {order : List ℕ} (horder : order.Perm l.keys)
    (hvalid : ∀ k ∈ l.keys, k < l.seqs.length) :
    ∃ ps, l.partials order = some ps ∧ ∀ q, q ∈ ps ↔ ∃ k ∈ l.keys, l.seqs[k]? = some q := by
  have hsome : ∀ k ∈ order, l.seqs[k]? ≠ none := by
    intro k hk hnone
    exact absurd (hvalid k (horder.subset hk)) (not_lt.mpr (List.getElem?_eq_none_iff.mp hnone))
  obtain ⟨ps, hps, -, hget⟩ := exists_mapM hsome
  refine ⟨ps, hps, fun q => ?_⟩
  rw [List.mem_iff_getElem?]
  constructor
  · rintro ⟨j, hj⟩
    rw [hget, Option.bind_eq_some_iff] at hj
    obtain ⟨k, hk, hq⟩ := hj
    exact ⟨k, horder.subset (List.mem_of_getElem? hk), hq⟩
  · rintro ⟨k, hk, hq⟩
    obtain ⟨j, hj⟩ := List.getElem?_of_mem (horder.symm.subset hk)
    exact ⟨j, by rw [hget, hj]; exact hq⟩

/-- **Collecting does not fail**: all goroutines have stored what is read. -/
lemma Par.Inv.exists_info {orders : List (List ℕ)} (hst : st.Inv model history computeInfo timeout)
    (hcheck : ∀ h ∈ history, Checkable model computeInfo h) (hinfo : computeInfo = true)
    (hcount : history.length ≤ st.count) (horders : st.IsOrders orders) :
    ∃ partials, ((List.range orders.length).mapM fun i =>
        (longestAt st.longest i).partials (orders.getD i [])) = some partials ∧
      Par.InfoFits model history computeInfo st.kill ⟨history, partials⟩ := by
  obtain ⟨hlength, hperm⟩ := horders
  rw [hst.longest_length] at hlength
  -- what the goroutine of a partition has stored
  have hstored : ∀ (i : ℕ) h, history[i]? = some h → ∃ ok l, longestAt st.longest i = l ∧
      Returned model computeInfo st.kill h ok l := by
    intro i h hh
    have hlt : i < st.workers.length := hst.length ▸ (List.getElem?_eq_some_iff.mp hh).1
    have hw := List.getElem?_eq_getElem hlt
    obtain ⟨ok, l, hdone⟩ := hst.all_done hcount hw
    have hfits := hst.workers i h _ hh hw
    have hlongest := hst.longest i _ hw
    rw [hdone] at hfits hlongest
    refine ⟨ok, l, ?_, hfits⟩
    unfold longestAt
    rw [hlongest]
    rfl
  have hsome : ∀ i ∈ List.range orders.length,
      (longestAt st.longest i).partials (orders.getD i []) ≠ none := by
    intro i hi
    have hi := List.mem_range.mp hi
    have hh : history[i]? = some (history.get ⟨i, hlength ▸ hi⟩) := List.getElem?_eq_getElem _
    obtain ⟨ok, l, hl, hreturned⟩ := hstored i _ hh
    have hkeys := hperm i hi
    rw [hl] at hkeys ⊢
    obtain ⟨ps, hps, -⟩ := Longest.exists_partials hkeys
      ((hcheck _ (List.mem_of_getElem? hh)).valid hinfo hreturned)
    rw [hps]
    exact Option.some_ne_none ps
  obtain ⟨partials, hpartials, hlength', hget⟩ := exists_mapM hsome
  refine ⟨partials, hpartials, rfl, ?_, fun i h hh => ?_⟩
  · show partials.length = _
    rw [hlength', List.length_range, hlength]
  · obtain ⟨ok, l, hl, hreturned⟩ := hstored i h hh
    have hi : i < orders.length := hlength ▸ (List.getElem?_eq_some_iff.mp hh).1
    refine ⟨ok, l, orders.getD i [], hreturned, hl ▸ hperm i hi, ?_⟩
    show partials[i]? = _
    rw [hget, List.getElem?_range hi, ← hl]
    rfl

/-- **Collecting keeps the invariant.** -/
lemma Par.Inv.collect {orders : List (List ℕ)} (hst : st.Inv model history computeInfo timeout)
    (hcheck : ∀ h ∈ history, Checkable model computeInfo h)
    (hstep : st.collect history orders = some st') :
    st'.Inv model history computeInfo timeout := by
  unfold Par.collect at hstep
  split at hstep
  · rename_i hpc
    split_ifs at hstep with hcond
    obtain ⟨partials, hpartials, hfits⟩ :=
      hst.exists_info hcheck (hst.waiting hpc) hcond.1 hcond.2
    rw [hpartials] at hstep
    obtain rfl := Option.some.inj hstep
    obtain ⟨taken, hcount, hperm, -⟩ := hst.answers
    have hne : st.pc ≠ .selecting := by
      rw [hpc]
      simp
    refine hst.main rfl rfl rfl (Or.inl rfl) ⟨taken, hcount, hperm, ?_⟩ ?_ ?_ ?_ hst.timedOut
      hst.kill ?_
    · intro hp
      cases hp
    · intro hp
      cases hp
    · intro hp
      cases hp
    · exact fun _ => hst.settled hne
    · intro r info hp
      obtain ⟨rfl, rfl⟩ := MainPc.returned.inj hp
      exact ⟨rfl, fun _ => hfits⟩
  · cases hstep

/-- Nothing has panicked, so the actions are taken. -/
lemma Par.Inv.step_eq (hst : st.Inv model history computeInfo timeout) (a : ParAction) :
    (parallel model history computeInfo timeout).step st a =
      st.act model history computeInfo timeout a := by
  show Par.step model history computeInfo timeout st a = _
  unfold Par.step
  rw [hst.crashed]
  rfl

/-- **Every step keeps the invariant.** -/
lemma Par.Inv.step {a : ParAction} (hst : st.Inv model history computeInfo timeout)
    (hcheck : ∀ h ∈ history, Checkable model computeInfo h)
    (hstep : (parallel model history computeInfo timeout).step st a = some st') :
    st'.Inv model history computeInfo timeout := by
  rw [hst.step_eq] at hstep
  cases a with
  | work i => exact hst.work (fun h hh => (hcheck h hh).ends) hstep
  | receive => exact hst.receive hstep
  | timeout => exact hst.timeUp hstep
  | collect orders => exact hst.collect hcheck hstep

/-- **Every run keeps the invariant.** -/
lemma Par.Inv.of_run {tr : List (Par ι ο σ × ParAction)}
    (hcheck : ∀ h ∈ history, Checkable model computeInfo h)
    (hrun : (parallel model history computeInfo timeout).Run tr st) :
    st.Inv model history computeInfo timeout := by
  induction hrun with
  | init => exact Par.Inv.init
  | step _ hstep ih => exact ih.step hcheck hstep

/-- **What a result means**, in every interleaving. -/
lemma Par.Inv.meaning (hst : st.Inv model history computeInfo timeout) {r : CheckResult}
    {info : LinearizationInfo ι ο} (hpc : st.pc = .returned r info) :
    (r = .ok → ∀ h ∈ history, ∃ l, Answers model computeInfo h true l) ∧
    (r = .illegal → ∃ h ∈ history, ∃ l, Answers model computeInfo h false l) ∧
    (r = .unknown → 0 < timeout) := by
  obtain ⟨rfl, -⟩ := hst.result r info hpc
  have hne : st.pc ≠ .selecting := by
    rw [hpc]
    simp
  obtain ⟨hfalse, htrue⟩ := hst.settled hne
  unfold Par.result
  split_ifs with hok hout
  · exact ⟨by simp, fun _ => hfalse hok, by simp⟩
  · exact ⟨by simp, by simp, fun _ => hst.timedOut hout⟩
  · exact ⟨fun _ => htrue (by simpa using hok) (by simpa using hout), by simp, by simp⟩

end Invariant

end GoLabs.Porcupine
