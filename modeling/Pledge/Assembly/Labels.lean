-- The table of labels: names with the offsets where they are placed, in the
-- order of the names.

namespace Pledge

/-- Labels and their offsets. The names grow, so each of them stands once. -/
structure Labels where
  entries : List (String × Nat)
  sorted : entries.Pairwise (fun a b => a.1 < b.1) := by decide
  deriving DecidableEq, Repr

namespace Labels

def empty : Labels := ⟨[], List.Pairwise.nil⟩

@[simp]
theorem entries_empty : empty.entries = [] := rfl

def get? (t : Labels) (label : String) : Option Nat := t.entries.lookup label

def contains (t : Labels) (label : String) : Bool := (t.get? label).isSome

/-- Puts a label at its place among sorted entries. -/
def insertEntry (label : String) (offset : Nat) : List (String × Nat) → List (String × Nat)
  | [] => [(label, offset)]
  | (name, n) :: rest =>
    if label < name then (label, offset) :: (name, n) :: rest
    else if label = name then (label, offset) :: rest
    else (name, n) :: insertEntry label offset rest

section

variable {label : String} {offset : Nat} {entries : List (String × Nat)}

theorem mem_insertEntry {entry : String × Nat} (h : entry ∈ insertEntry label offset entries) :
    entry = (label, offset) ∨ entry ∈ entries := by
  induction entries with
  | nil => exact .inl (List.mem_singleton.mp h)
  | cons head entries ih =>
    obtain ⟨first, n⟩ := head
    unfold insertEntry at h
    split at h
    · exact List.mem_cons.mp h
    · split at h
      · rcases List.mem_cons.mp h with h | h
        · exact .inl h
        · exact .inr (List.mem_cons_of_mem _ h)
      · rcases List.mem_cons.mp h with rfl | h
        · exact .inr List.mem_cons_self
        · rcases ih h with h | h
          · exact .inl h
          · exact .inr (List.mem_cons_of_mem _ h)

theorem pairwise_insertEntry (h : entries.Pairwise fun a b => a.1 < b.1) :
    (insertEntry label offset entries).Pairwise fun a b => a.1 < b.1 := by
  induction entries with
  | nil => exact List.pairwise_singleton _ _
  | cons head entries ih =>
    obtain ⟨first, n⟩ := head
    obtain ⟨hfirst, hrest⟩ := List.pairwise_cons.mp h
    unfold insertEntry
    by_cases hlt : label < first
    · rw [if_pos hlt]
      refine List.pairwise_cons.mpr ⟨?_, h⟩
      intro entry hentry
      rcases List.mem_cons.mp hentry with rfl | hentry
      · exact hlt
      · exact String.lt_trans hlt (hfirst entry hentry)
    · rw [if_neg hlt]
      by_cases heq : label = first
      · subst heq
        rw [if_pos rfl]
        exact List.pairwise_cons.mpr ⟨hfirst, hrest⟩
      · rw [if_neg heq]
        refine List.pairwise_cons.mpr ⟨?_, ih hrest⟩
        intro entry hentry
        rcases mem_insertEntry hentry with rfl | hentry
        · exact Std.lt_of_le_of_ne (String.not_lt.mp hlt) (Ne.symm heq)
        · exact hfirst entry hentry

end

/-- Puts a label into the table, in place of one with the same name. -/
def insert (t : Labels) (label : String) (offset : Nat) : Labels where
  entries := insertEntry label offset t.entries
  sorted := pairwise_insertEntry t.sorted

/-- The table of a list, where the last of two with the same name counts. -/
def ofList (pairs : List (String × Nat)) : Labels :=
  pairs.foldl (fun t (label, offset) => t.insert label offset) empty

/-- The names at an offset, in order. -/
def namesAt (t : Labels) (offset : Nat) : List String :=
  (t.entries.filter (·.2 == offset)).map Prod.fst

end Labels

end Pledge
