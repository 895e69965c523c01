import GoLabs.MapReduce.Worker

/-!
# The grouping loop of `doReduce`

The loop of `doReduce` over the ordered records, with its three indices: `i` is the first record of
a group, `j` runs to the end of the group and `k` collects the values in between. `reduceLoop` is
the loop with everything it does that can be seen from outside, the calls of `reducef` and the lines
written, in the order in which they happen. It is for any `reducef`, also one that depends on the
order of its values, and for any order of the records with equal keys.

`reduceLoop_eq` says that the loop does, group by group, what `groups` lists; so what the rest of
the development knows about `doReduce` is known about the loop (`writes_reduceLoop`), and the groups
of the ordered records are those of the records that were read (`reduceLoop_groups`).
-/

namespace GoLabs.MapReduce

open GoLabs.Lib

variable {reducef : Str → List Str → Str} {kvs : List KeyValue}

/-- What the loop does. -/
inductive ReduceEvent
  /-- A call of `reducef`. -/
  | call (key : Str) (values : List Str)
  /-- `fmt.Fprintf` to the output file. -/
  | write (text : Str)
  deriving DecidableEq

/-- The loop over `k`: append the values of the records before `j`. `none` is an index out of range,
or the end of the bound.
Source: `worker.go` `doReduce` -/
def collect (kvs : List KeyValue) (j : ℕ) : (fuel k : ℕ) → List Str → Option (List Str)
  | 0, _, _ => none
  | fuel + 1, k, values =>
      if k < j then
        kvs[k]?.bind fun kv => collect kvs j fuel (k + 1) (values ++ [kv.value])
      else some values

/-- The loop over `i`, with the loops over `j` and `k` in its body.
Source: `worker.go` `doReduce` -/
def reduceLoop (reducef : Str → List Str → Str) (kvs : List KeyValue) :
    (fuel i : ℕ) → Option (List ReduceEvent)
  | 0, _ => none
  | fuel + 1, i =>
      match kvs[i]? with
      | none => some []
      | some kv => do
          let j ← nextKey kvs kv.key (kvs.length + 1) (i + 1)
          let values ← collect kvs j (kvs.length + 1) i []
          let output := reducef kv.key values
          let rest ← reduceLoop reducef kvs fuel j
          some (.call kv.key values :: .write (line kv.key output) :: rest)

/-- The call for a group, and the line written after it. -/
def groupEvents (reducef : Str → List Str → Str) (g : Str × List Str) : List ReduceEvent :=
  [.call g.1 g.2, .write (line g.1 (reducef g.1 g.2))]

/-- The loop over `k` ends with the values from `k` up to `j` appended. -/
lemma collect_eq {j fuel k : ℕ} (hj : j ≤ kvs.length) (h : j - k < fuel) (values : List Str) :
    collect kvs j fuel k values =
      some (values ++ ((kvs.take j).drop k).map KeyValue.value) := by
  induction fuel generalizing k values with
  | zero => exact absurd h (Nat.not_lt_zero _)
  | succ fuel ih =>
      unfold collect
      split_ifs with hk
      · have hlen : k < (kvs.take j).length := by
          rw [List.length_take]
          omega
        rw [List.getElem?_eq_getElem (by omega), Option.bind_some, ih (by omega),
          List.drop_eq_getElem_cons hlen, List.getElem_take]
        simp
      · rw [List.drop_eq_nil_of_le (by rw [List.length_take]; omega)]
        simp

/-- **The loop does what the groups list**, one call and one line for each. -/
theorem reduceLoop_eq (reducef : Str → List Str → Str) (kvs : List KeyValue) (fuel i : ℕ) :
    reduceLoop reducef kvs fuel i =
      (groupsFrom kvs fuel i).map (List.flatMap (groupEvents reducef)) := by
  induction fuel generalizing i with
  | zero => rfl
  | succ fuel ih =>
      unfold reduceLoop groupsFrom
      cases hi : kvs[i]? with
      | none => rfl
      | some kv =>
          have hlt := (List.getElem?_eq_some_iff.mp hi).1
          -- the inner loop stops at the end of the slice at the latest
          have hle : i + 1 + ((kvs.drop (i + 1)).takeWhile fun b => b.key = kv.key).length ≤
              kvs.length := by
            have hrun : ((kvs.drop (i + 1)).takeWhile fun b => b.key = kv.key).length ≤
                (kvs.drop (i + 1)).length := (List.takeWhile_sublist _).length_le
            rw [List.length_drop] at hrun
            omega
          dsimp only
          rw [nextKey_eq (by omega)]
          dsimp only [Option.bind_eq_bind, Option.bind_some]
          rw [collect_eq hle (by omega), ih]
          cases groupsFrom kvs fuel
            (i + 1 + ((kvs.drop (i + 1)).takeWhile fun b => b.key = kv.key).length) with
          | none => rfl
          | some gs => rfl

/-- The lines among the events. -/
def writes (es : List ReduceEvent) : List Str :=
  es.filterMap fun
    | .write text => some text
    | .call _ _ => none

/-- The lines that the loop writes are the output of `doReduce`. -/
theorem writes_reduceLoop (E : Env) (intermediate : List KeyValue) :
    (reduceLoop E.reducef (E.sort intermediate) ((E.sort intermediate).length + 1) 0).map writes =
      reduceOutput E intermediate := by
  rw [reduceLoop_eq, reduceOutput, groups, Option.map_map]
  refine congrArg (Option.map · _) (funext fun gs => ?_)
  induction gs with
  | nil => rfl
  | cons g gs ih =>
      rw [List.map_cons, ← ih]
      rfl

/-- **The grouping loop of `doReduce`**, for any key-ordered permutation `sorted` of the records
read: it ends, and its events are one call of `reducef` and one line for each of the groups `gs`.
The keys of `gs` ascend and are those of the records, and each comes with all values that the
records pair with it. -/
theorem reduceLoop_groups (reducef : Str → List Str → Str) {intermediate sorted : List KeyValue}
    (hperm : sorted.Perm intermediate) (hsorted : sorted.Pairwise fun a b => a.key ≤ b.key)
    {fuel : ℕ} (hfuel : sorted.length < fuel) :
    ∃ gs : List (Str × List Str),
      reduceLoop reducef sorted fuel 0 = some (gs.flatMap fun g =>
        [.call g.1 g.2, .write (line g.1 (reducef g.1 g.2))]) ∧
      (gs.map Prod.fst).Pairwise (· < ·) ∧
      (∀ key, key ∈ gs.map Prod.fst ↔ key ∈ intermediate.map KeyValue.key) ∧
      ∀ g ∈ gs, g.2 ≠ [] ∧
        g.2.Perm ((intermediate.filter fun kv => kv.key = g.1).map KeyValue.value) := by
  have hfuel' : sorted.length - 0 < fuel := hfuel
  obtain ⟨gs, hgs, hgrouped⟩ := groupsFrom_eq hsorted hfuel'
  rw [List.drop_zero] at hgrouped
  have hkeys : ∀ key, key ∈ gs.map Prod.fst ↔ key ∈ intermediate.map KeyValue.key := by
    intro key
    rw [hgrouped.mem_keys]
    exact (hperm.map _).mem_iff
  refine ⟨gs, ?_, hgrouped.ascending, hkeys, fun g hg => ?_⟩
  · rw [reduceLoop_eq, hgs, Option.map_some]
    rfl
  · have hvalues : g.2.Perm ((intermediate.filter fun kv => kv.key = g.1).map KeyValue.value) := by
      rw [hgrouped.values g hg]
      exact (hperm.filter _).map _
    refine ⟨?_, hvalues⟩
    intro hnil
    -- the key of the group is the key of some record
    obtain ⟨kv, hkv, hkey⟩ := List.mem_map.mp ((hkeys g.1).mp (List.mem_map_of_mem hg))
    have hmem : kv.value ∈ (intermediate.filter fun kv => kv.key = g.1).map KeyValue.value :=
      List.mem_map_of_mem (List.mem_filter.mpr ⟨hkv, by simpa using hkey⟩)
    rw [hnil] at hvalues
    rw [hvalues.symm.eq_nil] at hmem
    exact absurd hmem List.not_mem_nil

/-- Three records with two keys, ordered by a sort that is not stable, and a `reducef` that depends
on the order of its values. -/
theorem reduceLoop_groups_sample :
    reduceLoop (fun _ values => values.flatten)
        [⟨ascii "a", ascii "3"⟩, ⟨ascii "a", ascii "1"⟩, ⟨ascii "b", ascii "2"⟩] 4 0 =
      some [.call (ascii "a") [ascii "3", ascii "1"], .write (ascii "a 31\n"),
        .call (ascii "b") [ascii "2"], .write (ascii "b 2\n")] ∧
    ∃ gs : List (Str × List Str),
      reduceLoop (fun _ values => values.flatten)
          [⟨ascii "a", ascii "3"⟩, ⟨ascii "a", ascii "1"⟩, ⟨ascii "b", ascii "2"⟩] 4 0 =
        some (gs.flatMap fun g => [.call g.1 g.2, .write (line g.1 g.2.flatten)]) ∧
      (gs.map Prod.fst).Pairwise (· < ·) ∧ ∀ g ∈ gs, g.2 ≠ [] := by
  refine ⟨by decide, ?_⟩
  have hperm : [(⟨ascii "a", ascii "3"⟩ : KeyValue), ⟨ascii "a", ascii "1"⟩,
      ⟨ascii "b", ascii "2"⟩].Perm
      [⟨ascii "a", ascii "1"⟩, ⟨ascii "b", ascii "2"⟩, ⟨ascii "a", ascii "3"⟩] := by decide
  obtain ⟨gs, hgs, hasc, -, hvalues⟩ := reduceLoop_groups (fun _ values => values.flatten) hperm
    (by decide) (by decide : 3 < 4)
  exact ⟨gs, hgs, hasc, fun g hg => (hvalues g hg).1⟩

end GoLabs.MapReduce
