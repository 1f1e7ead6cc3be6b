import LineLisp.Scope.Bindings

/-!
Bindings as finite maps. Inserting changes the look-up of one name only, and bindings that
answer every look-up alike are equal, since the order of their entries leaves no choice.
-/

namespace LineLisp.Bindings

variable {α : Type}

private theorem lookup_entry (name key : Bytes) (value : α) (rest : List (Bytes × α)) :
    ((key, value) :: rest).lookup name =
      if name = key then some value else rest.lookup name := by
  by_cases h : name = key
  · subst h
    simp
  · have hbeq : (name == key) = false := by simpa using h
    simp [List.lookup_cons, hbeq, h]

theorem lookup_place (name other : Bytes) (value : α) (entries : List (Bytes × α)) :
    (place name value entries).lookup other =
      if other = name then some value else entries.lookup other := by
  induction entries with
  | nil => simp only [place, lookup_entry, List.lookup_nil]
  | cons entry rest ih =>
      obtain ⟨key, old⟩ := entry
      unfold place
      split
      · simp only [lookup_entry]
      · split
        · rename_i heq
          subst heq
          by_cases h : other = name <;> simp [lookup_entry, h]
        · rename_i hne
          by_cases h : other = key
          · subst h
            simp [Ne.symm hne]
          · simp [lookup_entry, h, ih]

@[simp]
theorem get?_insert (b : Bindings α) (name other : Bytes) (value : α) :
    (b.insert name value).get? other = if other = name then some value else b.get? other :=
  lookup_place name other value b.entries

theorem mem_entries_of_get? {b : Bindings α} {name : Bytes} {value : α}
    (h : b.get? name = some value) : (name, value) ∈ b.entries := by
  obtain ⟨before, after, heq, -⟩ := List.lookup_eq_some_iff.mp h
  simp [heq]

/-- A name below every key of the entries is not among them. -/
private theorem lookup_eq_none_of_lt {name : Bytes} {entries : List (Bytes × α)}
    (h : ∀ entry ∈ entries, name < entry.1) : entries.lookup name = none := by
  refine List.lookup_eq_none_iff.mpr fun entry hentry => ?_
  have hlt := h entry hentry
  simp only [bne_iff_ne, ne_eq]
  rintro rfl
  exact List.lt_irrefl _ hlt

/-- Entries are found by their names, of which each stands there once. -/
private theorem lookup_of_mem {name : Bytes} {value : α} {entries : List (Bytes × α)}
    (hentries : entries.Pairwise fun a b => a.1 < b.1) (h : (name, value) ∈ entries) :
    entries.lookup name = some value := by
  induction entries with
  | nil => cases h
  | cons entry rest ih =>
      obtain ⟨hfirst, hrest⟩ := List.pairwise_cons.mp hentries
      obtain ⟨key, old⟩ := entry
      rw [lookup_entry]
      rcases List.mem_cons.mp h with heq | hmem
      · cases heq
        exact if_pos rfl
      · have hne : name ≠ key := fun heq => List.lt_irrefl key (heq ▸ hfirst _ hmem)
        rw [if_neg hne]
        exact ih hrest hmem

theorem get?_eq_some_iff_mem {b : Bindings α} {name : Bytes} {value : α} :
    b.get? name = some value ↔ (name, value) ∈ b.entries :=
  ⟨mem_entries_of_get?, lookup_of_mem b.ordered⟩

/-- The first key of entries is not below all keys of others with the same look-ups. -/
private theorem head_not_lt {key key' : Bytes} {value value' : α} {xs ys : List (Bytes × α)}
    (hys : ((key', value') :: ys).Pairwise fun a b => a.1 < b.1)
    (h : ((key, value) :: xs).lookup key = ((key', value') :: ys).lookup key) :
    ¬ key < key' := by
  intro hlt
  have hnone : ((key', value') :: ys).lookup key = none := by
    apply lookup_eq_none_of_lt
    intro entry hentry
    rcases List.mem_cons.mp hentry with rfl | hentry
    · exact hlt
    · exact List.lt_trans hlt ((List.pairwise_cons.mp hys).1 entry hentry)
  rw [hnone] at h
  simp at h

private theorem entries_eq_of_lookup {xs ys : List (Bytes × α)}
    (hxs : xs.Pairwise fun a b => a.1 < b.1) (hys : ys.Pairwise fun a b => a.1 < b.1)
    (h : ∀ name, xs.lookup name = ys.lookup name) : xs = ys := by
  induction xs generalizing ys with
  | nil =>
      cases ys with
      | nil => rfl
      | cons y ys => simpa [lookup_entry] using (h y.1).symm
  | cons x xs ih =>
      obtain ⟨key, value⟩ := x
      cases ys with
      | nil => simpa [lookup_entry] using h key
      | cons y ys =>
          obtain ⟨key', value'⟩ := y
          have hkey : key = key' := List.le_antisymm
            (List.not_lt.mp (head_not_lt hxs (h key').symm))
            (List.not_lt.mp (head_not_lt hys (h key)))
          subst hkey
          have hvalue : value = value' := by simpa [lookup_entry] using h key
          obtain ⟨hx, hxs⟩ := List.pairwise_cons.mp hxs
          obtain ⟨hy, hys⟩ := List.pairwise_cons.mp hys
          have htail : xs = ys := by
            apply ih hxs hys
            intro name
            by_cases hname : name = key
            · subst hname
              rw [lookup_eq_none_of_lt hx, lookup_eq_none_of_lt hy]
            · simpa [lookup_entry, hname] using h name
          rw [hvalue, htail]

/-- Bindings are determined by their look-ups. -/
theorem ext_get? {a b : Bindings α} (h : ∀ name, a.get? name = b.get? name) : a = b := by
  have hentries := entries_eq_of_lookup a.ordered b.ordered h
  cases a
  cases b
  cases hentries
  rfl

end LineLisp.Bindings
