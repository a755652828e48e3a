import Mathlib.Data.List.Nodup

/-!
# Insertion-ordered maps

A map with its items in the order in which their keys were first set, as a
Python `dict` keeps them: assigning to a key that is there leaves it in place.
-/

structure Dict (α : Type u) (β : Type v) where
  items : List (α × β)
  nodup : (items.map Prod.fst).Nodup

namespace Dict

variable {α : Type u} {β : Type v}

theorem pair_not_mem {entries : List (α × β)} (h : k ∉ entries.map Prod.fst) (v : β) : (k, v) ∉ entries :=
  fun hmem => h (List.mem_map_of_mem hmem)

variable [DecidableEq α]

instance [DecidableEq β] : DecidableEq (Dict α β) := fun c d =>
  decidable_of_iff (c.items = d.items) ⟨fun h => by cases c; cases d; cases h; rfl, fun h => h ▸ rfl⟩

def empty : Dict α β := ⟨[], .nil⟩

def keys (d : Dict α β) : List α := d.items.map Prod.fst

def get? (d : Dict α β) (k : α) : Option β := (d.items.find? fun e => e.1 = k).map Prod.snd

theorem keys_assign (items : List (α × β)) (k : α) (v : β) :
    (items.map fun e => if e.1 = k then (k, v) else e).map Prod.fst = items.map Prod.fst := by
  rw [List.map_map]
  refine List.map_congr_left fun e _ => ?_
  by_cases h : e.1 = k <;> simp [h]

/-- `d[k] = v` -/
def set (d : Dict α β) (k : α) (v : β) : Dict α β :=
  if h : k ∈ d.keys then
    ⟨d.items.map fun e => if e.1 = k then (k, v) else e, by rw [keys_assign]; exact d.nodup⟩
  else
    ⟨d.items ++ [(k, v)], by
      rw [List.map_append]
      refine d.nodup.append (by simp) fun j hj hk => h ?_
      obtain rfl : j = k := by simpa using hk
      exact hj⟩

/-- `del d[k]` -/
def erase (d : Dict α β) (k : α) : Dict α β :=
  ⟨d.items.filter fun e => e.1 ≠ k, d.nodup.sublist (List.filter_sublist.map _)⟩

/-- The assignments of a loop over `entries`. -/
def update (d : Dict α β) (entries : List (α × β)) : Dict α β := entries.foldl (fun d e => d.set e.1 e.2) d

/-- `d.setdefault(k, []).append(x)` -/
def push (d : Dict α (List β)) (k : α) (x : β) : Dict α (List β) := d.set k ((d.get? k).getD [] ++ [x])

def groupBy (f : β → α) (l : List β) : Dict α (List β) := l.foldl (fun d x => d.push (f x) x) empty

-- ---------------------------------------------------------------------------
-- Lookups
-- ---------------------------------------------------------------------------

@[simp] theorem get?_empty (k : α) : (empty : Dict α β).get? k = none := rfl

theorem get?_eq_some {d : Dict α β} : d.get? k = some v ↔ (k, v) ∈ d.items := by
  obtain ⟨items, hnodup⟩ := d
  simp only [get?]
  induction items with
  | nil => simp
  | cons e items ih =>
    obtain ⟨j, w⟩ := e
    obtain ⟨hj, hnodup⟩ := List.nodup_cons.mp hnodup
    by_cases hk : j = k
    · subst hk
      simp [pair_not_mem hj v, eq_comm]
    · have hne : k ≠ j := fun h => hk h.symm
      simpa [hk, hne] using ih hnodup

theorem mem_keys {d : Dict α β} : k ∈ d.keys ↔ ∃ v, d.get? k = some v := by
  simp [keys, get?_eq_some]

theorem get?_eq_none {d : Dict α β} : d.get? k = none ↔ k ∉ d.keys := by
  rw [mem_keys, Option.eq_none_iff_forall_ne_some]
  simp

theorem get?_set (d : Dict α β) (k : α) (v : β) (j : α) :
    (d.set k v).get? j = if j = k then some v else d.get? j := by
  refine Option.ext fun w => ?_
  rw [get?_eq_some]
  unfold set
  split
  · rename_i hk
    obtain ⟨u, hu⟩ := mem_keys.mp hk
    have hu := get?_eq_some.mp hu
    simp only [List.mem_map, Prod.exists]
    constructor
    · rintro ⟨i, x, hx, heq⟩
      split at heq
      · obtain ⟨rfl, rfl⟩ := Prod.mk.inj heq
        simp
      · rename_i hne
        obtain ⟨rfl, rfl⟩ := Prod.mk.inj heq
        rw [if_neg hne, get?_eq_some]
        exact hx
    · intro hw
      split at hw
      · rename_i hj
        cases hw
        exact ⟨k, u, hu, by simp [hj]⟩
      · rename_i hne
        exact ⟨j, w, get?_eq_some.mp hw, if_neg hne⟩
  · rename_i hk
    have hnone : d.get? k = none := get?_eq_none.mpr hk
    simp only [List.mem_append, List.mem_singleton, Prod.mk.injEq]
    by_cases hj : j = k
    · subst hj
      rw [← get?_eq_some, hnone]
      simp [eq_comm]
    · rw [if_neg hj, get?_eq_some]
      simp [hj]

theorem get?_erase (d : Dict α β) (k j : α) : (d.erase k).get? j = if j = k then none else d.get? j := by
  refine Option.ext fun v => ?_
  rw [get?_eq_some]
  by_cases h : j = k <;> simp [erase, h, get?_eq_some]

theorem mem_keys_set {d : Dict α β} : j ∈ (d.set k v).keys ↔ j = k ∨ j ∈ d.keys := by
  rw [mem_keys, mem_keys]
  simp only [get?_set]
  by_cases h : j = k <;> simp [h]

theorem get?_update {entries : List (α × β)} (hnodup : (entries.map Prod.fst).Nodup) (d : Dict α β) :
    (d.update entries).get? k = some v ↔ (k, v) ∈ entries ∨ k ∉ entries.map Prod.fst ∧ d.get? k = some v := by
  induction entries generalizing d with
  | nil => simp [update]
  | cons e entries ih =>
    obtain ⟨j, w⟩ := e
    obtain ⟨hj, hnodup⟩ := List.nodup_cons.mp hnodup
    rw [show d.update ((j, w) :: entries) = (d.set j w).update entries from rfl, ih hnodup, get?_set]
    by_cases hk : k = j
    · subst hk
      have hk : k ∉ entries.map Prod.fst := hj
      simp [pair_not_mem hk v, hk, eq_comm]
    · simp [hk]

theorem get?_groupBy (f : β → α) (l : List β) (k : α) :
    ((groupBy f l).get? k).getD [] = l.filter fun x => f x = k := by
  suffices h : ∀ d : Dict α (List β),
      ((l.foldl (fun d x => d.push (f x) x) d).get? k).getD [] = (d.get? k).getD [] ++ l.filter fun x => f x = k by
    simpa [groupBy] using h empty
  induction l with
  | nil => simp
  | cons x l ih =>
    intro d
    rw [List.foldl_cons, ih, push, get?_set]
    by_cases hk : f x = k
    · simp [hk]
    · have hne : k ≠ f x := fun h => hk h.symm
      simp [hk, hne]

end Dict
