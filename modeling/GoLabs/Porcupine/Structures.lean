import GoLabs.Porcupine.Checker

/-!
# What the data structures of the search stand for

The search of `checkSingle` works on a linked list, a cache and the slice `longest`. This file says
what they stand for and what their operations do to it.

* The list has the events that are left (`lift_spec`): `lift` takes an operation out of it, and
  `unlift` puts it back.
* The cache has the configurations that the search has visited (`CacheHolds`). Looking only at the
  entries with the same hash is the same as looking at all of them (`CacheHolds.contains`).
* `longest` has a longest one of the sequences noted so far for each operation (`LongestOf`).
-/

namespace GoLabs.Porcupine

open GoLabs.Lib

variable {ι ο σ : Type} {n : ℕ} {T : Trace n} {input : ℕ → ι} {output : ℕ → ο}
  {nodes : List (Node ι ο)} {addr : Ev → ℕ}

/-! ## The list -/

/-- `lift` takes the call out, and then the return. -/
lemma lift_eq {L L₁ : Links} {a m : ℕ} (hmatch : matchOf nodes a = some m)
    (hunlink : L.unlink a = some L₁) (hself : L.prev a ≠ some a) (hnext : L.next a ≠ none) :
    lift nodes L a = L₁.unlink m := by
  obtain ⟨b, hb⟩ := Option.ne_none_iff_exists'.mp hnext
  unfold Links.unlink at hunlink
  cases hp : L.prev a with
  | none =>
      rw [hp] at hunlink
      cases hunlink
  | some p =>
      have hpa : a ≠ p := by
        rintro rfl
        exact hself hp
      rw [hp] at hunlink
      simp only [Links.setNext_next, if_neg hpa, hb, Links.setNext_prev, hp, Links.setPrevOf,
        Option.some.injEq] at hunlink
      unfold lift Links.unlink
      simp only [hp, hb, Option.bind_eq_bind, Option.bind_some, Links.setNext_next, if_neg hpa,
        Links.setNext_prev, hmatch, hunlink]
      cases L₁.prev m with
      | none => rfl
      | some q => rfl

/-- `unlift` puts the return back, and then the call. -/
lemma unlift_eq {L L₁ L₂ : Links} {a m : ℕ} (hmatch : matchOf nodes a = some m)
    (hm : L₂.relink m = some L₁) (ha : L₁.relink a = some L) (hself : L₁.prev a ≠ some a)
    (hnext : L₁.next a ≠ none) : unlift nodes L₂ a = some L := by
  obtain ⟨b, hb⟩ := Option.ne_none_iff_exists'.mp hnext
  unfold Links.relink at hm ha
  cases hq : L₂.prev m with
  | none =>
      rw [hq] at hm
      cases hm
  | some q =>
      rw [hq] at hm
      have hm := Option.some.inj hm
      cases hp : L₁.prev a with
      | none =>
          rw [hp] at ha
          cases ha
      | some p =>
          have hpa : a ≠ p := by
            rintro rfl
            exact hself hp
          rw [hp] at ha
          simp only [Links.setNext_next, if_neg hpa, hb, Links.setPrevOf] at ha
          unfold unlift
          simp only [hmatch, hq, Option.bind_eq_bind, Option.bind_some]
          rw [hm]
          simp only [hp, hb, Option.bind_some, Links.setNext_next, if_neg hpa]
          exact ha

/-- In a list without duplicates, what follows an element comes after it. -/
lemma mem_of_sublist_append {α : Type} {a b : α} {l₁ l₂ : List α} (hl : (l₁ ++ a :: l₂).Nodup)
    (h : [a, b].Sublist (l₁ ++ a :: l₂)) : b ∈ l₂ := by
  induction l₁ with
  | nil =>
      cases h with
      | cons _ h => exact absurd (h.subset (by simp)) (List.nodup_cons.mp hl).1
      | cons_cons _ h => exact List.singleton_sublist.mp h
  | cons x l₁ ih =>
      have hl := List.nodup_cons.mp hl
      cases h with
      | cons _ h => exact ih hl.2 h
      | cons_cons _ h => exact absurd (by simp) hl.1

/-- The return of an operation that is left comes after its call. -/
lemma ret_mem_of_remaining {done : Finset ℕ} {i : ℕ} {pre post : List Ev}
    (h : T.remaining done = pre ++ Ev.call i :: post) : Ev.ret i ∈ post := by
  have hcall : Ev.call i ∈ T.remaining done := by
    rw [h]
    simp
  obtain ⟨hmem, hi⟩ := Trace.mem_remaining.mp hcall
  have hpair : [Ev.call i, Ev.ret i].Sublist (T.remaining done) :=
    Trace.pair_sublist_remaining.mpr ⟨T.call_ret i (T.id_lt _ hmem), hi, hi⟩
  have hnodup : (T.remaining done).Nodup := Trace.remaining_nodup
  rw [h] at hpair hnodup
  exact mem_of_sublist_append hnodup hpair

/-- The parts of what is left around the call and the return of an operation. -/
lemma remaining_split {done : Finset ℕ} {i : ℕ} (hi : i < n) (hdone : i ∉ done) :
    ∃ l₁ l₂ l₃, T.remaining done = l₁ ++ Ev.call i :: (l₂ ++ Ev.ret i :: l₃) ∧
      T.remaining (insert i done) = l₁ ++ (l₂ ++ l₃) := by
  have hcall : Ev.call i ∈ T.remaining done := Trace.mem_remaining.mpr ⟨Trace.call_mem hi, hdone⟩
  obtain ⟨l₁, post, hpost⟩ := List.append_of_mem hcall
  obtain ⟨l₂, l₃, rfl⟩ := List.append_of_mem (ret_mem_of_remaining hpost)
  refine ⟨l₁, l₂, l₃, hpost, ?_⟩
  have hnodup : (T.remaining done).Nodup := Trace.remaining_nodup
  rw [hpost] at hnodup
  have hkeep : ∀ e ∈ l₁ ++ (l₂ ++ l₃), e.id ≠ i := by
    intro e he hid
    have hne : e ≠ Ev.call i ∧ e ≠ Ev.ret i := by
      constructor
      · rintro rfl
        simp only [List.nodup_append, List.nodup_cons] at hnodup
        simp only [List.mem_append] at he
        grind
      · rintro rfl
        simp only [List.nodup_append, List.nodup_cons] at hnodup
        simp only [List.mem_append] at he
        grind
    cases e with
    | call j => exact hne.1 (congrArg Ev.call hid)
    | ret j => exact hne.2 (congrArg Ev.ret hid)
  have hfilter : ∀ l : List Ev, (∀ e ∈ l, e ∈ l₁ ++ (l₂ ++ l₃)) →
      (l.filter fun e => e.id ≠ i) = l := by
    intro l hl
    refine List.filter_eq_self.mpr fun e he => ?_
    simpa using hkeep e (hl e he)
  rw [Trace.remaining_insert, hpost, List.filter_append, List.filter_cons_of_neg (by simp),
    List.filter_append, List.filter_cons_of_neg (by simp), hfilter l₁ (by simp +contextual),
    hfilter l₂ (by simp +contextual), hfilter l₃ (by simp +contextual)]

/-- The node of a call points to that of its return. -/
lemma Layout.matchOf_call (hL : Layout T input output nodes addr) {i : ℕ} (hi : i < n) :
    matchOf nodes (addr (.call i)) = some (addr (.ret i)) := by
  unfold matchOf
  rw [hL.node (Trace.call_mem hi)]
  rfl

/-- The cells of the list: the head and the events that are left. -/
def cells (addr : Ev → ℕ) (head : ℕ) (es : List Ev) : List ℕ := head :: es.map addr

/-- The cells of the events that remain are all different. -/
lemma Layout.cells_nodup (hL : Layout T input output nodes addr) (done : Finset ℕ) :
    (cells addr nodes.length (T.remaining done)).Nodup := by
  have hevents : ∀ {e}, e ∈ T.remaining done → e ∈ T.events :=
    fun he => (Trace.mem_remaining.mp he).1
  refine List.nodup_cons.mpr ⟨?_, ?_⟩
  · intro hmem
    obtain ⟨e, he, heq⟩ := List.mem_map.mp hmem
    exact absurd (hL.lt (hevents he)) (by omega)
  · exact List.Nodup.map_on (fun e he e' he' => hL.inj (hevents he) (hevents he'))
      Trace.remaining_nodup

/-- **`lift` takes an operation out of the list, and `unlift` puts it back.** -/
lemma Layout.lift_spec (hL : Layout T input output nodes addr) {L : Links} {done : Finset ℕ} {i : ℕ}
    (hi : i < n) (hdone : i ∉ done)
    (hlinked : L.Linked (cells addr nodes.length (T.remaining done))) :
    ∃ L', lift nodes L (addr (.call i)) = some L' ∧
      L'.Linked (cells addr nodes.length (T.remaining (insert i done))) ∧
      unlift nodes L' (addr (.call i)) = some L := by
  obtain ⟨l₁, l₂, l₃, hsplit, hinsert⟩ := remaining_split (T := T) hi hdone
  have hbefore : cells addr nodes.length (T.remaining done) = (nodes.length :: l₁.map addr) ++
      addr (.call i) :: (l₂.map addr ++ addr (.ret i) :: l₃.map addr) := by simp [cells, hsplit]
  have hafter : cells addr nodes.length (T.remaining (insert i done)) =
      (nodes.length :: l₁.map addr ++ l₂.map addr) ++ l₃.map addr := by simp [cells, hinsert]
  have hnodup := hL.cells_nodup done
  rw [hbefore] at hlinked hnodup
  rw [hafter]
  -- the call goes first
  obtain ⟨L₁, hun₁, hlinked₁, hre₁, hself, hprev, hnext⟩ :=
    hlinked.unlink hnodup (List.cons_ne_nil _ _)
  have hsome : L.next (addr (.call i)) ≠ none := by
    rw [hlinked.next_eq]
    simp
  -- then its return
  have hnodup₁ := hnodup.sublist (List.Sublist.append_left (List.sublist_cons_self _ _) _)
  rw [← List.append_assoc] at hlinked₁ hnodup₁
  obtain ⟨L₂, hun₂, hlinked₂, hre₂, -, -, -⟩ := hlinked₁.unlink hnodup₁ (by simp)
  refine ⟨L₂, ?_, hlinked₂, ?_⟩
  · rw [lift_eq (hL.matchOf_call hi) hun₁ hself hsome]
    exact hun₂
  · refine unlift_eq (hL.matchOf_call hi) hre₂ hre₁ ?_ ?_
    · rw [hprev]
      exact hself
    · rw [hnext]
      exact hsome

/-! ## The cache -/

/-- A cache entry stands for a configuration of the search. -/
def CacheEntry.Stands (n : ℕ) (entry : CacheEntry σ) (c : Trace.Config σ) : Prop :=
  Bitset.Represents n entry.linearized c.done ∧ entry.state = c.state

/-- The cache holds the configurations of the table, each under its hash. -/
def CacheHolds (n : ℕ) (cache : Cache σ) (table : List (Trace.Config σ)) : Prop :=
  ∃ entries : List (CacheEntry σ),
    (∀ hash, cache hash = entries.filter fun entry => entry.linearized.hash = hash) ∧
    List.Forall₂ (CacheEntry.Stands n) entries table

/-- The empty cache holds nothing. -/
lemma cacheHolds_nil : CacheHolds n (fun _ => [] : Cache σ) [] :=
  ⟨[], fun _ => rfl, List.Forall₂.nil⟩

/-- A configuration that is put into the cache is held by it. -/
lemma CacheHolds.push {cache : Cache σ} {table : List (Trace.Config σ)} {entry : CacheEntry σ}
    {c : Trace.Config σ} (h : CacheHolds n cache table) (hc : entry.Stands n c) :
    CacheHolds n (Function.update cache entry.linearized.hash
      (cache entry.linearized.hash ++ [entry])) (table ++ [c]) := by
  obtain ⟨entries, hcache, hall⟩ := h
  refine ⟨entries ++ [entry], fun hash => ?_, ?_⟩
  · rw [List.filter_append, ← hcache]
    by_cases hhash : hash = entry.linearized.hash
    · simp [hhash]
    · rw [Function.update_of_ne hhash]
      simp [Ne.symm hhash]
  · exact List.rel_append hall (List.Forall₂.cons hc List.Forall₂.nil)

/-- **Looking for the hash loses nothing**: the configuration is found iff the table has one that
counts as the same. -/
lemma CacheHolds.contains {cache : Cache σ} {table : List (Trace.Config σ)} {entry : CacheEntry σ}
    {c : Trace.Config σ} (h : CacheHolds n cache table) (hc : entry.Stands n c)
    (model : FullModel ι ο σ) (T : Trace n) (P : Spec σ ℕ) :
    cacheContains model cache entry = table.any ((T.search P model.equal).same c) := by
  obtain ⟨entries, hcache, hall⟩ := h
  unfold cacheContains
  -- entries with another hash are not equal anyway
  have hfilter : ((entries.filter fun e => e.linearized.hash = entry.linearized.hash).any
        fun elem => entry.linearized.equals elem.linearized && model.equal entry.state elem.state) =
      entries.any
        fun elem => entry.linearized.equals elem.linearized &&
          model.equal entry.state elem.state := by
    rw [List.any_filter]
    congr 1
    funext elem
    cases hequals : entry.linearized.equals elem.linearized with
    | false => simp
    | true => simp [Bitset.equals_iff.mp hequals]
  rw [hcache, hfilter]
  clear hcache hfilter
  induction hall with
  | nil => rfl
  | cons hd _ ih =>
      rw [List.any_cons, List.any_cons, ih, hc.1.equals hd.1, hc.2, hd.2]
      rfl

/-! ## The longest sequences -/

/-- `longest` has nothing for `i` if no sequence of the log has it, and otherwise one of the longest
that do. -/
def Longest.BestAt (x : Longest) (log : List (List ℕ)) (i : ℕ) : Prop :=
  (x.pointers[i]? = some none ∧ ∀ p ∈ log, i ∉ p) ∨
  ∃ a q, x.pointers[i]? = some (some a) ∧ x.seqs[a]? = some q ∧ q ∈ log ∧ i ∈ q ∧
    ∀ p ∈ log, i ∈ p → p.length ≤ q.length

/-- `longest` has a longest one of the sequences of the log for each of the `n` operations. -/
def LongestOf (n : ℕ) (x : Longest) (log : List (List ℕ)) : Prop :=
  x.pointers.length = n ∧ ∀ i < n, x.BestAt log i

/-- At first no sequence is known. -/
lemma longestOf_nil (n : ℕ) : LongestOf n ⟨[], List.replicate n none⟩ [] := by
  refine ⟨List.length_replicate, fun i hi => Or.inl ⟨?_, by simp⟩⟩
  rw [List.getElem?_replicate, if_pos hi]

/-- A sequence without the operation leaves its longest one. -/
lemma Longest.BestAt.of_not_mem {x : Longest} {log : List (List ℕ)} {ids : List ℕ} {i : ℕ}
    (h : x.BestAt log i) (hi : i ∉ ids) : x.BestAt (log ++ [ids]) i := by
  rcases h with ⟨hnone, hlog⟩ | ⟨a, q, ha, hq, hmem, hiq, hbest⟩
  · refine Or.inl ⟨hnone, fun p hp => ?_⟩
    rcases List.mem_append.mp hp with hp | hp
    · exact hlog p hp
    · rw [List.mem_singleton.mp hp]
      exact hi
  · refine Or.inr ⟨a, q, ha, hq, List.mem_append_left _ hmem, hiq, fun p hp hip => ?_⟩
    rcases List.mem_append.mp hp with hp | hp
    · exact hbest p hp hip
    · rw [List.mem_singleton.mp hp] at hip
      exact absurd hip hi

/-- Other sequences and other operations do not matter. -/
lemma Longest.BestAt.mono {x y : Longest} {log : List (List ℕ)} {i : ℕ} (h : x.BestAt log i)
    (hpointer : y.pointers[i]? = x.pointers[i]?)
    (hseqs : ∀ (a : ℕ) q, x.seqs[a]? = some q → y.seqs[a]? = some q) : y.BestAt log i := by
  rcases h with ⟨hnone, hlog⟩ | ⟨a, q, ha, hq, hrest⟩
  · exact Or.inl ⟨hpointer.trans hnone, hlog⟩
  · exact Or.inr ⟨a, q, hpointer.trans ha, hseqs a q hq, hrest⟩

/-- Where the loop over the calls is: it has yet to look at `left`. -/
structure Noting (n : ℕ) (log : List (List ℕ)) (ids left : List ℕ) (x : Longest × Option ℕ) :
    Prop where
  length : x.1.pointers.length = n
  /-- The sequence is there once it is made. -/
  seq : ∀ a, x.2 = some a → x.1.seqs[a]? = some ids
  todo : ∀ i < n, x.1.BestAt log i ∨ x.1.BestAt (log ++ [ids]) i
  done : ∀ i < n, i ∉ left → x.1.BestAt (log ++ [ids]) i

section Noting

variable {log : List (List ℕ)} {ids left : List ℕ} {x : Longest × Option ℕ} {id : ℕ}

/-- The sequence is made if it is not there yet, and `longest` points to it. -/
lemma Noting.note_eq (h : Noting n log ids left x)
    (hlonger : x.1.isLonger ids.length id = some true) :
    ∃ seqs a, Longest.note ids x id = some (⟨seqs, x.1.pointers.set id (some a)⟩, some a) ∧
      seqs[a]? = some ids ∧ ∀ (b : ℕ) q, x.1.seqs[b]? = some q → seqs[b]? = some q := by
  obtain ⟨⟨seqs, pointers⟩, seq⟩ := x
  unfold Longest.note
  rw [hlonger]
  cases seq with
  | some a => exact ⟨seqs, a, rfl, h.seq a rfl, fun _ _ hb => hb⟩
  | none =>
      refine ⟨seqs ++ [ids], seqs.length, rfl, List.getElem?_concat_length, fun b q hb => ?_⟩
      have hb : seqs[b]? = some q := hb
      rw [List.getElem?_append_left (List.getElem?_eq_some_iff.mp hb).1]
      exact hb

/-- The sequence is a longest one for `id`. -/
lemma Noting.step_longer (h : Noting n log ids (id :: left) x) (hid : id < n) (hmem : id ∈ ids)
    (hlonger : x.1.isLonger ids.length id = some true)
    (hbest : ∀ p ∈ log, id ∈ p → p.length ≤ ids.length) :
    ∃ y, Longest.note ids x id = some y ∧ Noting n log ids left y := by
  obtain ⟨seqs, a, hnote, ha, hseqs⟩ := h.note_eq hlonger
  have hself : Longest.BestAt ⟨seqs, x.1.pointers.set id (some a)⟩ (log ++ [ids]) id := by
    refine Or.inr ⟨a, ids, ?_, ha, by simp, hmem, fun p hp hidp => ?_⟩
    · exact List.getElem?_set_self (h.length ▸ hid)
    · rcases List.mem_append.mp hp with hp | hp
      · exact hbest p hp hidp
      · rw [List.mem_singleton.mp hp]
  have hother : ∀ {i log'}, i ≠ id → x.1.BestAt log' i →
      Longest.BestAt ⟨seqs, x.1.pointers.set id (some a)⟩ log' i := by
    intro i log' hi hx
    exact hx.mono (List.getElem?_set_ne hi.symm) hseqs
  refine ⟨_, hnote, ⟨?_, ?_, ?_, ?_⟩⟩
  · exact List.length_set.trans h.length
  · intro b hb
    obtain rfl := Option.some.inj hb
    exact ha
  · intro i hi
    by_cases heq : i = id
    · rw [heq]
      exact Or.inr hself
    · exact (h.todo i hi).imp (hother heq) (hother heq)
  · intro i hi hleft
    by_cases heq : i = id
    · rw [heq]
      exact hself
    · exact hother heq (h.done i hi (by simp [heq, hleft]))

/-- What is there for `id` is at least as long. -/
lemma Noting.step_same (h : Noting n log ids (id :: left) x)
    (hlonger : x.1.isLonger ids.length id = some false)
    (hbest : x.1.BestAt (log ++ [ids]) id) :
    ∃ y, Longest.note ids x id = some y ∧ Noting n log ids left y := by
  refine ⟨x, ?_, h.length, h.seq, h.todo, fun i hi hleft => ?_⟩
  · unfold Longest.note
    rw [hlonger]
  · by_cases heq : i = id
    · rw [heq]
      exact hbest
    · exact h.done i hi (by simp [heq, hleft])

/-- **One iteration of the loop over the calls.** -/
lemma Noting.step (h : Noting n log ids (id :: left) x) (hid : id < n) (hmem : id ∈ ids) :
    ∃ y, Longest.note ids x id = some y ∧ Noting n log ids left y := by
  rcases h.todo id hid with (⟨hnone, hlog⟩ | ⟨a, q, ha, hq, hqlog, hidq, hbest⟩) |
    (⟨-, hlog⟩ | ⟨a, q, ha, hq, hqlog, hidq, hbest⟩)
  · refine h.step_longer hid hmem ?_ fun p hp hidp => absurd hidp (hlog p hp)
    unfold Longest.isLonger
    rw [hnone]
  · have hlonger : x.1.isLonger ids.length id = some (decide (q.length < ids.length)) := by
      unfold Longest.isLonger
      rw [ha]
      simp only [hq, Option.map_some]
    by_cases hlt : q.length < ids.length
    · rw [decide_eq_true hlt] at hlonger
      exact h.step_longer hid hmem hlonger fun p hp hidp => (hbest p hp hidp).trans hlt.le
    · rw [decide_eq_false hlt] at hlonger
      refine h.step_same hlonger (Or.inr ⟨a, q, ha, hq, List.mem_append_left _ hqlog, hidq, ?_⟩)
      intro p hp hidp
      rcases List.mem_append.mp hp with hp | hp
      · exact hbest p hp hidp
      · rw [List.mem_singleton.mp hp]
        exact not_lt.mp hlt
  · exact absurd hmem (hlog ids (by simp))
  · -- the sequence has been noted for `id` already
    have hle : ids.length ≤ q.length := hbest ids (by simp) hmem
    refine h.step_same ?_ (Or.inr ⟨a, q, ha, hq, hqlog, hidq, hbest⟩)
    unfold Longest.isLonger
    rw [ha]
    simp only [hq, Option.map_some, decide_eq_false (not_lt.mpr hle)]

/-- The loop over the calls that are left. -/
lemma Noting.loop (h : Noting n log ids left x) (hlt : ∀ i ∈ left, i < n) (hsub : left ⊆ ids) :
    ∃ y, left.foldlM (Longest.note ids) x = some y ∧ Noting n log ids [] y := by
  induction left generalizing x with
  | nil => exact ⟨x, rfl, h⟩
  | cons id left ih =>
      obtain ⟨y, hy, hnoting⟩ := h.step (hlt id List.mem_cons_self) (hsub List.mem_cons_self)
      obtain ⟨z, hz, hdone⟩ := ih hnoting (fun i hi => hlt i (List.mem_cons_of_mem id hi))
        fun i hi => hsub (List.mem_cons_of_mem id hi)
      refine ⟨z, ?_, hdone⟩
      rw [List.foldlM_cons, hy]
      exact hz

end Noting

/-- **A sequence is noted** where it is longest. -/
lemma LongestOf.noteAll {x : Longest} {log : List (List ℕ)} {ids : List ℕ} (h : LongestOf n x log)
    (hlt : ∀ i ∈ ids, i < n) : ∃ y, x.noteAll ids = some y ∧ LongestOf n y (log ++ [ids]) := by
  have hstart : Noting n log ids ids (x, none) := by
    refine ⟨h.1, ?_, fun i hi => Or.inl (h.2 i hi), fun i hi hids => (h.2 i hi).of_not_mem hids⟩
    intro a ha
    cases ha
  obtain ⟨y, hy, hdone⟩ := hstart.loop hlt fun _ hi => hi
  refine ⟨y.1, ?_, hdone.length, fun i hi => hdone.done i hi (by simp)⟩
  unfold Longest.noteAll
  rw [hy]
  rfl

end GoLabs.Porcupine
