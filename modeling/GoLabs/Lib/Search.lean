import GoLabs.Lib.Loop

/-!
# Depth-first search with a table of visited configurations

A search goes from configuration to configuration by moves. It tries the moves of a configuration
in their order, does not enter a configuration that is the same as one of its table, and turns back
when no move is left. It keeps a log of the trails at which it turned back.

* `Search` — a search problem: the moves of a configuration, where they lead, which configurations
  are goals and which count as the same.
* `Path` — moves that lead from one configuration to another.
* `Search.body` — one iteration of the search.
* `Search.Sound` — what makes the table sound: configurations that count as the same can make the
  same moves, and every move raises a rank that is bounded.

The search ends (`Sound.ends`). If it finds a goal, its trail is a path to it. If not, no goal can
be reached, and for every configuration that can be reached, the start apart, the log has a trail
that leads to an equivalent one. That a table of visited configurations loses nothing is shown in
`Sound.explore`: every configuration of the table whose rank is above that of the current one is
closed, because only the configurations on the stack are not, and their ranks are lower.
-/

namespace GoLabs.Lib

variable {κ ι : Type*}

/-- A search problem. -/
structure Search (κ ι : Type*) where
  /-- The moves to try, in this order. -/
  moves : κ → List ι
  /-- Where a move leads, if it can be made. -/
  next : κ → ι → Option κ
  goal : κ → Bool
  /-- A new configuration counts as the same as one of the table. -/
  same : κ → κ → Bool

namespace Search

/-- A configuration that the search will come back to, the move it has made there and those it has
yet to try. -/
structure Frame (κ ι : Type*) where
  config : κ
  move : ι
  rest : List ι

/-- The state of a search. -/
structure State (κ ι : Type*) where
  config : κ
  /-- The moves of `config` that are left. -/
  rest : List ι
  stack : List (Frame κ ι)
  table : List κ
  /-- The trails at which the search turned back. -/
  log : List (List ι)

/-- The moves that have been made, the first one first. -/
def trail (stack : List (Frame κ ι)) : List ι := (stack.map Frame.move).reverse

/-- The empty stack has made no move. -/
@[simp] lemma trail_nil : trail ([] : List (Frame κ ι)) = [] := rfl

/-- The top of the stack is the last move. -/
@[simp] lemma trail_cons (f : Frame κ ι) (stack : List (Frame κ ι)) :
    trail (f :: stack) = trail stack ++ [f.move] := by simp [trail]

variable (S : Search κ ι)

/-- One iteration. -/
def body (x : State κ ι) : Option (State κ ι ⊕ Bool) :=
  if S.goal x.config then some (.inr true)
  else
    match x.rest with
    | i :: rest =>
        match S.next x.config i with
        | none => some (.inl { x with rest := rest })
        | some c =>
            if x.table.any (S.same c) then some (.inl { x with rest := rest })
            else
              some (.inl
                { x with
                  config := c
                  rest := S.moves c
                  stack := ⟨x.config, i, rest⟩ :: x.stack
                  table := x.table ++ [c] })
    | [] =>
        match x.stack with
        | [] => some (.inr false)
        | f :: stack =>
            some (.inl
              { x with
                config := f.config
                rest := f.rest
                stack := stack
                log := x.log ++ [trail x.stack] })

/-- The search begins at `c`. -/
def start (c : κ) : State κ ι := ⟨c, S.moves c, [], [], []⟩

/-- Moves that lead from one configuration to another. -/
inductive Path : κ → List ι → κ → Prop
  | nil (c : κ) : Path c [] c
  | cons {c d e : κ} {i : ι} {p : List ι} (hi : i ∈ S.moves c) (hd : S.next c i = some d)
      (hp : Path d p e) : Path c (i :: p) e

/-- `d` can be reached from `c`. -/
def Reach (c d : κ) : Prop := ∃ p, S.Path c p d

variable {S} {c d e : κ} {i : ι} {p : List ι}

/-- A path and one more move. -/
lemma Path.snoc (h : S.Path c p d) (hi : i ∈ S.moves d) (he : S.next d i = some e) :
    S.Path c (p ++ [i]) e := by
  induction h with
  | nil c => exact Path.cons hi he (Path.nil e)
  | cons hj hd _ ih => exact Path.cons hj hd (ih hi he)

/-- A configuration reaches itself. -/
lemma Reach.refl (c : κ) : S.Reach c c := ⟨[], Path.nil c⟩

/-- One move, and then what is reached from there. -/
lemma Reach.head (hi : i ∈ S.moves c) (hd : S.next c i = some d) (h : S.Reach d e) :
    S.Reach c e := by
  obtain ⟨p, hp⟩ := h
  exact ⟨i :: p, Path.cons hi hd hp⟩

/-- What is reached is the configuration itself or is reached by a first move. -/
lemma Reach.cases_head (h : S.Reach c e) :
    e = c ∨ ∃ i ∈ S.moves c, ∃ d, S.next c i = some d ∧ S.Reach d e := by
  obtain ⟨p, hp⟩ := h
  cases hp with
  | nil => exact Or.inl rfl
  | cons hi hd hp => exact Or.inr ⟨_, hi, _, hd, _, hp⟩

/-! ## What holds along a search -/

/-- The stack leads from `root` to `c`: each frame has made a move of its configuration, and the
moves that it has yet to try are moves of it as well. -/
inductive Stacked (S : Search κ ι) (root : κ) : List (Frame κ ι) → κ → Prop
  | nil : Stacked S root [] root
  | cons {f : Frame κ ι} {stack : List (Frame κ ι)} {c : κ} (hstack : Stacked S root stack f.config)
      (hmove : f.move ∈ S.moves f.config) (hnext : S.next f.config f.move = some c)
      (hrest : ∀ i ∈ f.rest, i ∈ S.moves f.config) : Stacked S root (f :: stack) c

/-- The stack is a path from the root to the present configuration. -/
lemma Stacked.path {root : κ} {stack : List (Frame κ ι)} (h : Stacked S root stack c) :
    S.Path root (trail stack) c := by
  induction h with
  | nil => exact Path.nil root
  | cons _ hmove hnext _ ih =>
      rw [trail_cons]
      exact ih.snoc hmove hnext

/-- The invariant of a search from `root`. -/
structure Inv (S : Search κ ι) (root : κ) (x : State κ ι) : Prop where
  stacked : Stacked S root x.stack x.config
  rest : ∀ i ∈ x.rest, i ∈ S.moves x.config
  log : ∀ p ∈ x.log, ∃ d, S.Path root p d

/-- The invariant holds at the start. -/
lemma Inv.start (S : Search κ ι) (root : κ) : Inv S root (S.start root) where
  stacked := Stacked.nil
  rest _ hi := hi
  log _ hp := by simp [Search.start] at hp

/-- **What an iteration can do.** -/
lemma body_cases {x : State κ ι} {r : State κ ι ⊕ Bool} (h : S.body x = some r) :
    (S.goal x.config = true ∧ r = .inr true) ∨
    S.goal x.config = false ∧
      ((∃ i rest, x.rest = i :: rest ∧
          (∀ c, S.next x.config i = some c → x.table.any (S.same c) = true) ∧
          r = .inl { x with rest := rest }) ∨
      (∃ i rest c, x.rest = i :: rest ∧ S.next x.config i = some c ∧
          x.table.any (S.same c) = false ∧
          r = .inl ⟨c, S.moves c, ⟨x.config, i, rest⟩ :: x.stack, x.table ++ [c], x.log⟩) ∨
      (∃ f stack, x.rest = [] ∧ x.stack = f :: stack ∧
          r = .inl ⟨f.config, f.rest, stack, x.table, x.log ++ [trail x.stack]⟩) ∨
      (x.rest = [] ∧ x.stack = [] ∧ r = .inr false)) := by
  unfold body at h
  split_ifs at h with hgoal
  · exact Or.inl ⟨hgoal, (Option.some.inj h).symm⟩
  refine Or.inr ⟨by simpa using hgoal, ?_⟩
  split at h
  · rename_i i rest hrest
    split at h
    · rename_i hnone
      refine Or.inl ⟨i, rest, hrest, ?_, (Option.some.inj h).symm⟩
      intro c hc
      rw [hnone] at hc
      cases hc
    · rename_i c hc
      split_ifs at h with htable
      · refine Or.inl ⟨i, rest, hrest, ?_, (Option.some.inj h).symm⟩
        intro d hd
        rw [hc] at hd
        rw [← Option.some.inj hd]
        exact htable
      · exact Or.inr (Or.inl ⟨i, rest, c, hrest, hc, by simpa using htable,
          (Option.some.inj h).symm⟩)
  · rename_i hrest
    split at h
    · rename_i hstack
      exact Or.inr (Or.inr (Or.inr ⟨hrest, hstack, (Option.some.inj h).symm⟩))
    · rename_i f stack hstack
      exact Or.inr (Or.inr (Or.inl ⟨f, stack, hrest, hstack, (Option.some.inj h).symm⟩))

/-- A search does not get stuck. -/
lemma exists_body (S : Search κ ι) (x : State κ ι) : ∃ r, S.body x = some r := by
  unfold body
  split_ifs
  · exact ⟨_, rfl⟩
  · split
    · split
      · exact ⟨_, rfl⟩
      · split_ifs
        · exact ⟨_, rfl⟩
        · exact ⟨_, rfl⟩
    · split
      · exact ⟨_, rfl⟩
      · exact ⟨_, rfl⟩

/-- An iteration keeps the invariant. -/
lemma Inv.step {root : κ} {x y : State κ ι} (h : Inv S root x) (hxy : S.body x = some (.inl y)) :
    Inv S root y := by
  obtain ⟨-, hr⟩ | ⟨-, ⟨i, rest, hrest, -, hr⟩ | ⟨i, rest, c, hrest, hc, -, hr⟩ |
    ⟨f, stack, hrest, hstack, hr⟩ | ⟨-, -, hr⟩⟩ := body_cases hxy
  · cases hr
  · obtain rfl := Sum.inl.inj hr
    refine ⟨h.stacked, fun j hj => h.rest j ?_, h.log⟩
    rw [hrest]
    exact List.mem_cons_of_mem i hj
  · obtain rfl := Sum.inl.inj hr
    have hmoves : ∀ j ∈ i :: rest, j ∈ S.moves x.config := hrest ▸ h.rest
    refine ⟨?_, fun _ hj => hj, h.log⟩
    exact Stacked.cons h.stacked (hmoves i List.mem_cons_self) hc
      fun j hj => hmoves j (List.mem_cons_of_mem i hj)
  · obtain rfl := Sum.inl.inj hr
    have hpath := h.stacked.path
    have hstacked := h.stacked
    rw [hstack] at hstacked
    cases hstacked with
    | cons hbelow _ _ hleft =>
        refine ⟨hbelow, hleft, fun p hp => ?_⟩
        rcases List.mem_append.mp hp with hp | hp
        · exact h.log p hp
        · rw [List.mem_singleton.mp hp]
          exact ⟨x.config, hpath⟩
  · cases hr

/-- **A whole search keeps the invariant.** -/
lemma Inv.goes {root : κ} {x y : State κ ι} (h : Inv S root x) (hxy : Goes S.body x y) :
    Inv S root y := by
  induction hxy with
  | refl => exact h
  | tail _ hstep ih => exact ih.step hstep

/-! ## Completeness -/

/-- What makes a search with a table from `root` sound. `Sim` relates configurations that can make
the same moves for ever. -/
structure Sound (S : Search κ ι) (root : κ) (Sim : κ → κ → Prop) (rank : κ → ℕ) (bound : ℕ) :
    Prop where
  refl : ∀ c, Sim c c
  trans : ∀ {c d e}, Sim c d → Sim d e → Sim c e
  of_same : ∀ {c d}, S.same c d = true → Sim c d
  goal_eq : ∀ {c d}, Sim c d → S.goal c = S.goal d
  rank_eq : ∀ {c d}, Sim c d → rank c = rank d
  /-- A move of the one is a move of the other, and they lead to related configurations. -/
  move : ∀ {c d i c'}, Sim c d → i ∈ S.moves c → S.next c i = some c' →
    i ∈ S.moves d ∧ ∃ d', S.next d i = some d' ∧ Sim c' d'
  rank_next : ∀ {c i d}, i ∈ S.moves c → S.next c i = some d → rank c < rank d
  rank_le : ∀ {c}, S.Reach root c → rank c ≤ bound

/-- No goal can be reached from `c`, and for all that can be reached from it there is a trail in the
log that leads to an equivalent configuration. -/
def Closed (S : Search κ ι) (root : κ) (Sim : κ → κ → Prop) (log : List (List ι)) (c : κ) : Prop :=
  ∀ y, S.Reach c y → S.goal y = false ∧ ∃ p ∈ log, ∃ d, S.Path root p d ∧ Sim y d

namespace Sound

variable {root : κ} {Sim : κ → κ → Prop} {rank : κ → ℕ} {bound : ℕ} {log log' : List (List ι)}

/-- What can be reached from a configuration can be reached from an equivalent one. -/
lemma reach (hS : Sound S root Sim rank bound) (hsim : Sim c d) {y : κ} (h : S.Reach c y) :
    ∃ z, S.Reach d z ∧ Sim y z := by
  obtain ⟨p, hp⟩ := h
  induction hp generalizing d with
  | nil c => exact ⟨d, Reach.refl d, hsim⟩
  | cons hi hd _ ih =>
      obtain ⟨hi', d', hd', hsim'⟩ := hS.move hsim hi hd
      obtain ⟨z, hz, hyz⟩ := ih hsim'
      exact ⟨z, hz.head hi' hd', hyz⟩

/-- A configuration is closed if one that it is equivalent to is. -/
lemma closed_of_sim (hS : Sound S root Sim rank bound) (hsim : Sim c d)
    (h : Closed S root Sim log d) : Closed S root Sim log c := by
  intro y hy
  obtain ⟨z, hz, hyz⟩ := hS.reach hsim hy
  obtain ⟨hgoal, p, hp, e, he, hze⟩ := h z hz
  exact ⟨(hS.goal_eq hyz).trans hgoal, p, hp, e, he, hS.trans hyz hze⟩

end Sound

/-- A closed configuration stays closed when the log grows. -/
lemma Closed.mono {root : κ} {Sim : κ → κ → Prop} {log log' : List (List ι)} (hlog : log ⊆ log')
    (h : Closed S root Sim log c) : Closed S root Sim log' c := by
  intro y hy
  obtain ⟨hgoal, p, hp, hd⟩ := h y hy
  exact ⟨hgoal, p, hlog hp, hd⟩

/-- A configuration is closed when its moves lead to closed ones and it is logged itself. -/
lemma Closed.of_moves {root : κ} {Sim : κ → κ → Prop} {log : List (List ι)}
    (hgoal : S.goal c = false) (hself : ∃ p ∈ log, ∃ d, S.Path root p d ∧ Sim c d)
    (h : ∀ i ∈ S.moves c, ∀ d, S.next c i = some d → Closed S root Sim log d) :
    Closed S root Sim log c := by
  intro y hy
  obtain rfl | ⟨i, hi, d, hd, hdy⟩ := hy.cases_head
  · exact ⟨hgoal, hself⟩
  · exact h i hi d hd y hdy

namespace Sound

variable {root : κ} {Sim : κ → κ → Prop} {rank : κ → ℕ} {bound : ℕ}

/-- The search finds a goal. -/
def Found (S : Search κ ι) (x : State κ ι) : Prop := ∃ y, Goes S.body x y ∧ S.goal y.config = true

/-- The search gets through the moves that are left and is then where it was, with a longer table
and a longer log. It has closed all that it has entered, and all that the moves lead to. -/
def Exhausts (S : Search κ ι) (root : κ) (Sim : κ → κ → Prop) (x : State κ ι) : Prop :=
  ∃ table log, Goes S.body x ⟨x.config, [], x.stack, table, log⟩ ∧ x.log ⊆ log ∧
    (∀ d ∈ table, d ∈ x.table ∨ Closed S root Sim log d) ∧
    ∀ i ∈ x.rest, ∀ d, S.next x.config i = some d → Closed S root Sim log d

/-- A search finds a goal if it gets to a state from which it does. -/
lemma Found.of_goes {x y : State κ ι} (hxy : Goes S.body x y) (h : Found S y) : Found S x := by
  obtain ⟨z, hz, hgoal⟩ := h
  exact ⟨z, hxy.trans hz, hgoal⟩

/-- The first move is done with, then the others are. -/
lemma Exhausts.cons {rest : List ι} {stack : List (Frame κ ι)} {table table' : List κ}
    {log log' : List (List ι)}
    (hgoes : Goes S.body ⟨c, i :: rest, stack, table, log⟩ ⟨c, rest, stack, table', log'⟩)
    (hlog : log ⊆ log') (htable : ∀ d ∈ table', d ∈ table ∨ Closed S root Sim log' d)
    (hi : ∀ d, S.next c i = some d → Closed S root Sim log' d)
    (h : Exhausts S root Sim ⟨c, rest, stack, table', log'⟩) :
    Exhausts S root Sim ⟨c, i :: rest, stack, table, log⟩ := by
  obtain ⟨table'', log'', hgoes', hlog', htable', hrest⟩ := h
  refine ⟨table'', log'', hgoes.trans hgoes', fun p hp => hlog' (hlog hp), ?_, ?_⟩
  · intro d hd
    rcases htable' d hd with hd | hd
    · exact (htable d hd).imp_right (Closed.mono hlog')
    · exact Or.inr hd
  · intro j hj d hd
    rcases List.mem_cons.mp hj with rfl | hj
    · exact (hi d hd).mono hlog'
    · exact hrest j hj d hd

/-- The search turns back from a configuration that it has entered and exhausted, and this one is
closed then. -/
lemma Exhausts.back (hS : Sound S root Sim rank bound) {f : Frame κ ι}
    {stack : List (Frame κ ι)} {table : List κ} {log : List (List ι)} (hgoal : S.goal c = false)
    (hpath : S.Path root (trail (f :: stack)) c)
    (h : Exhausts S root Sim ⟨c, S.moves c, f :: stack, table ++ [c], log⟩) :
    ∃ table' log', Goes S.body ⟨c, S.moves c, f :: stack, table ++ [c], log⟩
        ⟨f.config, f.rest, stack, table', log'⟩ ∧ log ⊆ log' ∧
      (∀ d ∈ table', d ∈ table ∨ Closed S root Sim log' d) ∧ Closed S root Sim log' c := by
  obtain ⟨table', log', hgoes, hlog, htable, hmoves⟩ := h
  have hbody : S.body ⟨c, [], f :: stack, table', log'⟩ =
      some (.inl ⟨f.config, f.rest, stack, table', log' ++ [trail (f :: stack)]⟩) := by
    simp only [body, hgoal, Bool.false_eq_true, if_false]
  have hmono : log' ⊆ log' ++ [trail (f :: stack)] := List.subset_append_left _ _
  have hc : Closed S root Sim (log' ++ [trail (f :: stack)]) c := by
    refine Closed.of_moves hgoal ?_ fun j hj d hd => (hmoves j hj d hd).mono hmono
    exact ⟨_, List.mem_append_right _ List.mem_cons_self, c, hpath, hS.refl c⟩
  refine ⟨table', _, hgoes.tail hbody, fun p hp => hmono (hlog hp), ?_, hc⟩
  intro d hd
  rcases htable d hd with hd | hd
  · rcases List.mem_append.mp hd with hd | hd
    · exact Or.inl hd
    · rw [List.mem_singleton.mp hd]
      exact Or.inr hc
  · exact Or.inr (hd.mono hmono)

/-- **The moves of one configuration**, when all configurations of a higher rank are explored as
they should. By induction on the moves that are left. -/
lemma explore_rest (hS : Sound S root Sim rank bound) {stack : List (Frame κ ι)}
    (hgoal : S.goal c = false)
    (ih : ∀ {x : State κ ι}, Inv S root x → S.goal x.config = false → rank c < rank x.config →
      (∀ d ∈ x.table, rank x.config < rank d → Closed S root Sim x.log d) →
      Found S x ∨ Exhausts S root Sim x)
    (rest : List ι) (table : List κ) (log : List (List ι))
    (hx : Inv S root ⟨c, rest, stack, table, log⟩)
    (htable : ∀ d ∈ table, rank c < rank d → Closed S root Sim log d) :
    Found S ⟨c, rest, stack, table, log⟩ ∨
      Exhausts S root Sim ⟨c, rest, stack, table, log⟩ := by
  induction rest generalizing table log with
  | nil =>
      refine Or.inr ⟨table, log, Relation.ReflTransGen.refl, fun _ hp => hp, fun _ => Or.inl, ?_⟩
      intro i hi
      cases hi
  | cons i rest ihrest =>
      have hmove : i ∈ S.moves c := hx.rest i List.mem_cons_self
      -- whatever is done about the first move, it is enough that it ends with this one closed
      have hdone : ∀ {table' log'},
          Goes S.body ⟨c, i :: rest, stack, table, log⟩ ⟨c, rest, stack, table', log'⟩ →
          log ⊆ log' → (∀ d ∈ table', d ∈ table ∨ Closed S root Sim log' d) →
          (∀ d, S.next c i = some d → Closed S root Sim log' d) →
          Found S ⟨c, i :: rest, stack, table, log⟩ ∨
            Exhausts S root Sim ⟨c, i :: rest, stack, table, log⟩ := by
        intro table' log' hgoes hlog hnew hclosed
        have hstill : ∀ d ∈ table', rank c < rank d → Closed S root Sim log' d := by
          intro d hd hlt
          rcases hnew d hd with hd | hd
          · exact (htable d hd hlt).mono hlog
          · exact hd
        rcases ihrest table' log' (hx.goes hgoes) hstill with hfound | hrest
        · exact Or.inl (hfound.of_goes hgoes)
        · exact Or.inr (hrest.cons hgoes hlog hnew hclosed)
      cases hnext : S.next c i with
      | none =>
          have hbody : S.body ⟨c, i :: rest, stack, table, log⟩ =
              some (.inl ⟨c, rest, stack, table, log⟩) := by
            simp only [body, hgoal, hnext, Bool.false_eq_true, if_false]
          refine hdone (Relation.ReflTransGen.single hbody) (fun _ hp => hp) (fun _ => Or.inl) ?_
          intro d hd
          rw [hnext] at hd
          cases hd
      | some c' =>
          have hrank : rank c < rank c' := hS.rank_next hmove hnext
          by_cases hany : table.any (S.same c') = true
          · have hbody : S.body ⟨c, i :: rest, stack, table, log⟩ =
                some (.inl ⟨c, rest, stack, table, log⟩) := by
              simp only [body, hgoal, hnext, hany, Bool.false_eq_true, if_true, if_false]
            refine hdone (Relation.ReflTransGen.single hbody) (fun _ hp => hp) (fun _ => Or.inl) ?_
            intro d hd
            rw [hnext] at hd
            obtain rfl := Option.some.inj hd
            obtain ⟨e, he, hsame⟩ := List.any_eq_true.mp hany
            have hsim := hS.of_same hsame
            exact hS.closed_of_sim hsim (htable e he (hS.rank_eq hsim ▸ hrank))
          · have hbody : S.body ⟨c, i :: rest, stack, table, log⟩ =
                some (.inl ⟨c', S.moves c', ⟨c, i, rest⟩ :: stack, table ++ [c'], log⟩) := by
              simp only [body, hgoal, hnext, hany, Bool.false_eq_true, if_false]
            have hx' := hx.step hbody
            cases hgoal' : S.goal c' with
            | true => exact Or.inl ⟨_, Relation.ReflTransGen.single hbody, hgoal'⟩
            | false =>
                have habove : ∀ d ∈ table ++ [c'], rank c' < rank d →
                    Closed S root Sim log d := by
                  intro d hd hlt
                  rcases List.mem_append.mp hd with hd | hd
                  · exact htable d hd (hrank.trans hlt)
                  · rw [List.mem_singleton.mp hd] at hlt
                    exact absurd hlt (lt_irrefl _)
                rcases ih hx' hgoal' hrank habove with hfound | hexhausts
                · exact Or.inl (hfound.of_goes (Relation.ReflTransGen.single hbody))
                · obtain ⟨table', log', hgoes, hlog, hnew, hc'⟩ :=
                    hexhausts.back hS hgoal' hx'.stacked.path
                  refine hdone (Goes.head hbody hgoes) hlog hnew ?_
                  intro d hd
                  rw [hnext] at hd
                  rw [← Option.some.inj hd]
                  exact hc'

/-- **Exploring a configuration.** The search finds a goal or gets through the moves that are left.
By induction on how far the rank is from its bound. -/
lemma explore (hS : Sound S root Sim rank bound) {x : State κ ι} (hx : Inv S root x)
    (hgoal : S.goal x.config = false)
    (htable : ∀ d ∈ x.table, rank x.config < rank d → Closed S root Sim x.log d) :
    Found S x ∨ Exhausts S root Sim x := by
  induction hk : bound - rank x.config using Nat.strong_induction_on generalizing x with
  | _ k ih =>
      refine hS.explore_rest hgoal ?_ x.rest x.table x.log hx htable
      intro y hy hgoal' hrank htable'
      have hle : rank y.config ≤ bound := hS.rank_le ⟨_, hy.stacked.path⟩
      exact ih (bound - rank y.config) (by omega) hy hgoal' htable' rfl

/-- How a search from `root` ends, in the state `x` and with the answer `b`: with a trail to a goal,
or because no goal can be reached. In this case the log covers all that can be reached by a move. -/
structure Ends (S : Search κ ι) (root : κ) (Sim : κ → κ → Prop) (x : State κ ι) (b : Bool) :
    Prop where
  goes : Goes S.body (S.start root) x
  leaves : S.body x = some (.inr b)
  found : b = true → S.goal x.config = true ∧ S.Path root (trail x.stack) x.config
  none_left : b = false → ∀ y, S.Reach root y → S.goal y = false ∧
    (y = root ∨ ∃ p ∈ x.log, ∃ d, S.Path root p d ∧ Sim y d)

/-- A search that has come to a goal ends with yes. -/
lemma Found.ends {x : State κ ι} (hgoes : Goes S.body (S.start root) x)
    (hgoal : S.goal x.config = true) : Ends S root Sim x true where
  goes := hgoes
  leaves := by simp [body, hgoal]
  found _ := ⟨hgoal, ((Inv.start S root).goes hgoes).stacked.path⟩
  none_left h := by cases h

/-- **The search ends.** -/
theorem ends (hS : Sound S root Sim rank bound) : ∃ x b, Ends S root Sim x b := by
  cases hgoal : S.goal root with
  | true => exact ⟨_, true, Found.ends Relation.ReflTransGen.refl hgoal⟩
  | false =>
      rcases hS.explore (Inv.start S root) hgoal (by simp [Search.start]) with h | h
      · obtain ⟨x, hx, hgoal'⟩ := h
        exact ⟨x, true, Found.ends hx hgoal'⟩
      · obtain ⟨table, log, hgoes, -, -, hclosed⟩ := h
        refine ⟨_, false, hgoes, by simp [body, Search.start, hgoal], by simp, ?_⟩
        intro _ y hy
        obtain rfl | ⟨i, hi, d, hd, hdy⟩ := hy.cases_head
        · exact ⟨hgoal, Or.inl rfl⟩
        · obtain ⟨hgoal', hseen⟩ := hclosed i hi d hd y hdy
          exact ⟨hgoal', Or.inr hseen⟩

end Sound

end Search

end GoLabs.Lib
