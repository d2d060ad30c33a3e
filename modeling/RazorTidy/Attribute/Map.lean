import RazorTidy.Text.Basic

/-!
# Attribute maps

The attributes of an element in the order of their first occurrence. No name occurs twice: inserting
a name that is there replaces its value and keeps its place. An attribute without a value has the
empty one.
-/

set_option autoImplicit false

namespace RazorTidy

/-- The entries of an attribute map after an insertion. -/
def insertEntry (name value : Text) : List (Text × Text) → List (Text × Text)
  | [] => [(name, value)]
  | (n, v) :: rest => if n = name then (n, value) :: rest else (n, v) :: insertEntry name value rest

/-- The names after an insertion: the same ones, with a new name at the end. -/
theorem names_insertEntry (name value : Text) (entries : List (Text × Text)) :
    (insertEntry name value entries).map Prod.fst =
      if name ∈ entries.map Prod.fst then entries.map Prod.fst
      else entries.map Prod.fst ++ [name] := by
  induction entries with
  | nil => rfl
  | cons entry rest ih =>
    obtain ⟨n, v⟩ := entry
    by_cases h : n = name
    · simp [insertEntry, h]
    · have h' : name ≠ n := fun e => h e.symm
      simp only [insertEntry, if_neg h, List.map_cons, ih, List.mem_cons, h', false_or]
      split <;> rfl

/-- Attributes in order, each name once. -/
structure AttributeMap where
  entries : List (Text × Text)
  nodup : (entries.map Prod.fst).Nodup
  deriving DecidableEq, Repr

namespace AttributeMap

/-- No attributes. -/
def empty : AttributeMap := ⟨[], List.nodup_nil⟩

/-- The map with `name` mapped to `value`. -/
def insert (map : AttributeMap) (name value : Text) : AttributeMap where
  entries := insertEntry name value map.entries
  nodup := by
    rw [names_insertEntry]
    split
    · exact map.nodup
    · rename_i h
      rw [List.nodup_append]
      refine ⟨map.nodup, List.nodup_cons.2 ⟨List.not_mem_nil, List.nodup_nil⟩, ?_⟩
      intro a ha b hb e
      rw [List.mem_singleton] at hb
      exact h (hb ▸ e ▸ ha)

/-- The value of a name. -/
def get? (map : AttributeMap) (name : Text) : Option Text := map.entries.lookup name

/-- The map that arises from inserting entries one after the other. -/
def ofEntries (entries : List (Text × Text)) : AttributeMap :=
  entries.foldl (fun map entry => map.insert entry.1 entry.2) empty

end AttributeMap

end RazorTidy
