/-!
# Groups

A map from group keys to what is kept of each group.  A key is a symbol, or none: rows without a
symbol form a group of their own, and so do all rows when there is nothing to group by.

* `GroupKey.le` : the order of keys, none first.
* `Groups` : the groups in the order of their first appearance, no key twice.
* `Groups.find?_insert_self`, `Groups.find?_insert_of_ne`, `Groups.keys_insert` : what an
  insertion does.
-/

namespace TimeWeighted

/-- What a group is known by: a symbol or none. -/
abbrev GroupKey := Option String

/-- None comes first, symbols follow in the order of their code points. -/
def GroupKey.le : GroupKey → GroupKey → Bool
  | none, _ => true
  | some _, none => false
  | some a, some b => a ≤ b

/-- What is kept of every group, in the order of first appearance. -/
structure Groups (α : Type) where
  /-- The groups. -/
  entries : List (GroupKey × α) := []
  /-- No key appears twice. -/
  nodup_keys : (entries.map (·.1)).Nodup := by exact List.nodup_nil

namespace Groups

variable {α : Type}

/-- The keys, in the order of first appearance. -/
def keys (groups : Groups α) : List GroupKey :=
  groups.entries.map (·.1)

/-- What is kept of a group. -/
def find? (groups : Groups α) (key : GroupKey) : Option α :=
  groups.entries.lookup key

/-- Replaces what is kept under `key` in a list of groups, or appends it. -/
def replaceIn (key : GroupKey) (a : α) : List (GroupKey × α) → List (GroupKey × α)
  | [] => [(key, a)]
  | (k, b) :: rest => if key = k then (k, a) :: rest else (k, b) :: replaceIn key a rest

theorem map_fst_replaceIn (key : GroupKey) (a : α) (entries : List (GroupKey × α)) :
    (replaceIn key a entries).map (·.1) =
      if key ∈ entries.map (·.1) then entries.map (·.1) else entries.map (·.1) ++ [key] := by
  induction entries with
  | nil => simp [replaceIn]
  | cons entry rest ih =>
    obtain ⟨k, b⟩ := entry
    rw [replaceIn]
    split
    · next h => simp [h]
    · next h =>
      simp only [List.map_cons, ih, List.mem_cons, h, false_or]
      split <;> rfl

theorem lookup_replaceIn_self (key : GroupKey) (a : α) (entries : List (GroupKey × α)) :
    (replaceIn key a entries).lookup key = some a := by
  induction entries with
  | nil => simp [replaceIn]
  | cons entry rest ih =>
    obtain ⟨k, b⟩ := entry
    by_cases h : key = k
    · simp [replaceIn, h]
    · simp [replaceIn, h, List.lookup_cons, beq_eq_false_iff_ne.2 h, ih]

theorem lookup_replaceIn_of_ne {key other : GroupKey} (h : other ≠ key) (a : α)
    (entries : List (GroupKey × α)) :
    (replaceIn key a entries).lookup other = entries.lookup other := by
  induction entries with
  | nil => simp [replaceIn, List.lookup_cons, beq_eq_false_iff_ne.2 h]
  | cons entry rest ih =>
    obtain ⟨k, b⟩ := entry
    by_cases hk : key = k
    · subst hk
      simp [replaceIn, List.lookup_cons, beq_eq_false_iff_ne.2 h]
    · simp only [replaceIn, if_neg hk, List.lookup_cons, ih]

/-- Replaces what is kept of a group, or adds the group at the end. -/
def insert (groups : Groups α) (key : GroupKey) (a : α) : Groups α where
  entries := replaceIn key a groups.entries
  nodup_keys := by
    rw [map_fst_replaceIn]
    split
    · exact groups.nodup_keys
    · next h =>
      rw [List.nodup_append]
      refine ⟨groups.nodup_keys, by simp, ?_⟩
      intro x hx y hy
      rw [List.mem_singleton.1 hy]
      rintro rfl
      exact h hx

@[simp] theorem keys_insert (groups : Groups α) (key : GroupKey) (a : α) :
    (groups.insert key a).keys =
      if key ∈ groups.keys then groups.keys else groups.keys ++ [key] :=
  map_fst_replaceIn key a groups.entries

@[simp] theorem find?_insert_self (groups : Groups α) (key : GroupKey) (a : α) :
    (groups.insert key a).find? key = some a :=
  lookup_replaceIn_self key a groups.entries

theorem find?_insert_of_ne (groups : Groups α) {key other : GroupKey} (h : other ≠ key) (a : α) :
    (groups.insert key a).find? other = groups.find? other :=
  lookup_replaceIn_of_ne h a groups.entries

end Groups

end TimeWeighted
