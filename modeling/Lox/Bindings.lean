/-!
# Bindings

A `Bindings α` gives names their meanings. A name has at most one meaning at a time: `insert` replaces
the old one. The two lemmas on `find?` after `insert` are all that the rest of the library needs to
know about the representation, a list of pairs in the order in which the names first came.
-/

namespace Lox

/-- Names with what they stand for. -/
structure Bindings (α : Type) where
  entries : List (String × α)

namespace Bindings

variable {α : Type}

/-- No name stands for anything. -/
def empty : Bindings α := ⟨[]⟩

instance : Inhabited (Bindings α) := ⟨empty⟩

/-- The first thing that `name` is paired with in a list. -/
def findIn (name : String) : List (String × α) → Option α
  | [] => none
  | (key, a) :: rest => if key = name then some a else findIn name rest

/-- Puts `a` in the place of what `name` is paired with, or at the end. -/
def insertIn (name : String) (a : α) : List (String × α) → List (String × α)
  | [] => [(name, a)]
  | (key, old) :: rest =>
    if key = name then (name, a) :: rest else (key, old) :: insertIn name a rest

/-- What `name` stands for. -/
def find? (bindings : Bindings α) (name : String) : Option α := findIn name bindings.entries

/-- Lets `name` stand for `a`, whatever it stood for. -/
def insert (bindings : Bindings α) (name : String) (a : α) : Bindings α :=
  ⟨insertIn name a bindings.entries⟩

/-- Holds if `name` stands for something. -/
def contains (bindings : Bindings α) (name : String) : Bool := (bindings.find? name).isSome

/-- The names that stand for something, in the order in which they first came. -/
def names (bindings : Bindings α) : List String := bindings.entries.map (·.1)

/-- Binds the pairs of a list one after the other. -/
def insertAll (bindings : Bindings α) (pairs : List (String × α)) : Bindings α :=
  pairs.foldl (fun bound (name, a) => bound.insert name a) bindings

theorem findIn_insertIn (name other : String) (a : α) (entries : List (String × α)) :
    findIn other (insertIn name a entries) =
      if name = other then some a else findIn other entries := by
  induction entries with
  | nil => rfl
  | cons entry rest ih =>
    obtain ⟨key, old⟩ := entry
    by_cases hk : key = name
    · subst hk
      by_cases ho : key = other <;> simp [insertIn, findIn, ho]
    · by_cases ho : key = other
      · subst ho
        simp [insertIn, findIn, hk, Ne.symm hk]
      · simp [insertIn, findIn, hk, ho, ih]

@[simp] theorem find?_empty (name : String) : (empty : Bindings α).find? name = none := rfl

/-- A name stands for what was bound to it last, and no other name is touched. -/
theorem find?_insert (bindings : Bindings α) (name other : String) (a : α) :
    (bindings.insert name a).find? other =
      if name = other then some a else bindings.find? other :=
  findIn_insertIn name other a bindings.entries

@[simp] theorem find?_insert_self (bindings : Bindings α) (name : String) (a : α) :
    (bindings.insert name a).find? name = some a := by
  simp [find?_insert]

theorem find?_insert_of_ne (bindings : Bindings α) {name other : String} (a : α)
    (h : name ≠ other) : (bindings.insert name a).find? other = bindings.find? other := by
  simp [find?_insert, h]

end Bindings

end Lox
