import LineLisp.Text.Bytes

/-!
Bindings of names, kept in increasing byte order of the names with one entry a name. The order
is part of the type, so bindings that answer every look-up alike are equal.
-/

namespace LineLisp

structure Bindings (α : Type) where
  entries : List (Bytes × α)
  ordered : entries.Pairwise fun a b => a.1 < b.1

namespace Bindings

variable {α : Type}

def empty : Bindings α where
  entries := []
  ordered := .nil

/-- Puts an entry in its place; an older one of the same name gives way. -/
def place (name : Bytes) (value : α) : List (Bytes × α) → List (Bytes × α)
  | [] => [(name, value)]
  | (other, old) :: rest =>
      if name < other then (name, value) :: (other, old) :: rest
      else if name = other then (name, value) :: rest
      else (other, old) :: place name value rest

theorem mem_place {name : Bytes} {value : α} {x : Bytes × α} :
    ∀ {entries : List (Bytes × α)}, x ∈ place name value entries →
      x = (name, value) ∨ x ∈ entries
  | [], h => by simpa [place] using h
  | (other, old) :: rest, h => by
      unfold place at h
      split at h
      · simpa using h
      · split at h
        · rcases List.mem_cons.mp h with h | h
          · exact .inl h
          · exact .inr (List.mem_cons_of_mem _ h)
        · rcases List.mem_cons.mp h with h | h
          · exact .inr (h ▸ List.mem_cons_self)
          · exact (mem_place h).imp id (List.mem_cons_of_mem _)

theorem place_ordered (name : Bytes) (value : α) :
    ∀ {entries : List (Bytes × α)}, entries.Pairwise (fun a b => a.1 < b.1) →
      (place name value entries).Pairwise fun a b => a.1 < b.1
  | [], _ => by simp [place]
  | (other, old) :: rest, h => by
      have hrest := List.pairwise_cons.mp h
      unfold place
      split
      · rename_i hlt
        refine List.pairwise_cons.mpr ⟨?_, h⟩
        intro x hx
        rcases List.mem_cons.mp hx with rfl | hx
        · exact hlt
        · exact List.lt_trans hlt (hrest.1 x hx)
      · split
        · rename_i heq
          exact List.pairwise_cons.mpr ⟨fun x hx => heq ▸ hrest.1 x hx, hrest.2⟩
        · rename_i hnlt hne
          refine List.pairwise_cons.mpr ⟨?_, place_ordered name value hrest.2⟩
          intro x hx
          rcases mem_place hx with rfl | hx
          · exact Decidable.byContradiction fun h =>
              hne (List.le_antisymm (List.not_lt.mp h) (List.not_lt.mp hnlt))
          · exact hrest.1 x hx

def insert (b : Bindings α) (name : Bytes) (value : α) : Bindings α where
  entries := place name value b.entries
  ordered := place_ordered name value b.ordered

def get? (b : Bindings α) (name : Bytes) : Option α :=
  b.entries.lookup name

/-- The bound names in order. -/
def names (b : Bindings α) : List Bytes :=
  b.entries.map (·.1)

end Bindings

end LineLisp
