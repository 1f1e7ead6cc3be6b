import LineLisp.Proofs.Scope.History
import LineLisp.Proofs.Scope.Lookup
import LineLisp.Session
import Mathlib.Data.List.Basic

/-!
The listing of a session as it is gathered from its frame. The names come in whatever order they are
kept in; they are sorted, and each is looked up by itself. Nothing of that order is left in the text,
nor anything else of the history but the latest write to each name, and what was written to other
frames does not show at all.
-/

namespace LineLisp

/-- Whether these are all the names of which something holds, each of them once, in any order. -/
structure Enumerates (names : List Bytes) (holds : Bytes → Prop) : Prop where
  nodup : names.Nodup
  mem_iff : ∀ name, name ∈ names ↔ holds name

/-- Whether these are all the names and values of which something holds, in strictly increasing byte
order of the names. -/
structure Lists {α : Type} (entries : List (Bytes × α)) (holds : Bytes → α → Prop) : Prop where
  increasing : entries.Pairwise fun a b => a.1 < b.1
  mem_iff : ∀ name a, (name, a) ∈ entries ↔ holds name a

/-- Texts in increasing byte order. -/
def Bytes.sorted (texts : List Bytes) : List Bytes :=
  texts.mergeSort fun a b => decide (a ≤ b)

theorem Bytes.sorted_increasing (texts : List Bytes) : (sorted texts).Pairwise (· ≤ ·) := by
  have htotal : ∀ a b : Bytes, (decide (a ≤ b) || decide (b ≤ a)) = true := by
    intro a b
    simpa using List.le_total a b
  have htrans : ∀ a b c : Bytes, decide (a ≤ b) = true → decide (b ≤ c) = true →
      decide (a ≤ c) = true := by
    intro a b c hab hbc
    simp only [decide_eq_true_eq] at hab hbc ⊢
    exact List.le_trans hab hbc
  exact (List.pairwise_mergeSort htrans htotal texts).imp of_decide_eq_true

/-- Sorting forgets the order in which names were enumerated. -/
theorem Bytes.sorted_eq {names ordered : List Bytes} (hordered : ordered.Pairwise (· < ·))
    (h : Enumerates names (· ∈ ordered)) : sorted names = ordered := by
  have hnodup : ordered.Nodup := by
    apply hordered.imp
    rintro a _ hlt rfl
    exact List.lt_irrefl a hlt
  have hperm : (sorted names).Perm ordered :=
    (List.mergeSort_perm ..).trans ((List.perm_ext_iff_of_nodup h.nodup hnodup).mpr h.mem_iff)
  refine hperm.eq_of_pairwise ?_ (sorted_increasing names) (hordered.imp List.le_of_lt)
  intro a b _ _ hab hba
  exact List.le_antisymm hab hba

namespace Bindings

variable {α : Type} {b : Bindings α}

theorem sorted_eq_names {names : List Bytes}
    (h : Enumerates names fun name => ∃ a, b.get? name = some a) : Bytes.sorted names = b.names := by
  have hordered : b.names.Pairwise (· < ·) := List.pairwise_map.mpr b.ordered
  refine Bytes.sorted_eq hordered ⟨h.nodup, fun name => ?_⟩
  rw [h.mem_iff, Bindings.names, List.mem_map]
  constructor
  · rintro ⟨a, ha⟩
    exact ⟨(name, a), mem_entries_of_get? ha, rfl⟩
  · rintro ⟨⟨_, a⟩, hmem, rfl⟩
    exact ⟨a, get?_eq_some_iff_mem.mpr hmem⟩

/-- Looking up each of the sorted names gives the entries. -/
theorem flatMap_sorted {names : List Bytes}
    (h : Enumerates names fun name => ∃ a, b.get? name = some a) {lookup : Bytes → Option α}
    (hlookup : ∀ name a, b.get? name = some a → lookup name = some a)
    (line : Bytes → Option α → Bytes) :
    ((Bytes.sorted names).flatMap fun name => line name (lookup name)) =
      b.entries.flatMap fun entry => line entry.1 (some entry.2) := by
  rw [sorted_eq_names h, Bindings.names, List.flatMap_map]
  apply List.flatMap_congr
  rintro ⟨name, a⟩ hmem
  rw [hlookup name a (get?_eq_some_iff_mem.mpr hmem)]

end Bindings

namespace Session

open Forest

def variableLine (name : Bytes) (v : Value) : Bytes :=
  name ++ utf8 " = " ++ v.shown ++ utf8 "\n"

def functionLine (name : Bytes) (params : List Bytes) : Bytes :=
  utf8 "(defun " ++ name ++ utf8 " (" ++ Bytes.join (utf8 " ") params ++ utf8 ") ...)\n"

/-- The listing as it is gathered when the names of variables and functions come in some order: they
are sorted and looked up one by one. -/
def gathered (s : Session) (vars funcs : List Bytes) : Bytes :=
  (Bytes.sorted vars).flatMap (fun name =>
      variableLine name ((s.scope.value? name).getD .absent))
    ++ (Bytes.sorted funcs).flatMap (fun name =>
      functionLine name (((s.scope.function? name).map (·.params)).getD []))

/-- Whatever the order of the names, the listing is that of the entries of the frame. -/
theorem gathered_eq_listing {s : Session} {vars funcs : List Bytes}
    (hvars : Enumerates vars fun name => ∃ v, s.scope.frame.vars.get? name = some v)
    (hfuncs : Enumerates funcs fun name => ∃ fn, s.scope.frame.funcs.get? name = some fn) :
    s.gathered vars funcs = s.listing := by
  have hvalue : ∀ name v, s.scope.frame.vars.get? name = some v →
      s.scope.value? name = some v := by
    intro name v hget
    rw [Scope.value?_eq_or, hget]
    rfl
  have hfunction : ∀ name fn, s.scope.frame.funcs.get? name = some fn →
      s.scope.function? name = some fn := by
    intro name fn hget
    rw [Scope.function?_eq_or, hget]
    rfl
  have hfirst := Bindings.flatMap_sorted hvars hvalue fun name v =>
    variableLine name (v.getD .absent)
  have hsecond := Bindings.flatMap_sorted hfuncs hfunction fun name fn =>
    functionLine name ((fn.map (·.params)).getD [])
  rw [gathered, hfirst, hsecond]
  rfl

section history

variable {history history' : List Operation} {f f' : Forest} {i i' : Nat}

section names

variable {α : Type} (ns : Namespace α)

/-- The names that a frame holds are those that were ever written in it. -/
theorem exists_get?_iff_written (h : Grows history f) (name : Bytes) :
    (∃ a, (ns.bindings (f.frame i)).get? name = some a) ↔ ns.Written history i name := by
  rw [← not_iff_not, ← Namespace.get?_eq_none_iff h, Option.eq_none_iff_forall_ne_some, not_exists]

theorem enumerates_written {names : List Bytes} (h : Grows history f)
    (hnames : Enumerates names (ns.Written history i)) :
    Enumerates names fun name => ∃ a, (ns.bindings (f.frame i)).get? name = some a := by
  refine ⟨hnames.nodup, fun name => ?_⟩
  rw [hnames.mem_iff, exists_get?_iff_written ns h]

theorem lists_entries (h : Grows history f) (i : Nat) :
    Lists (ns.bindings (f.frame i)).entries (ns.Latest history i) := by
  refine ⟨(ns.bindings (f.frame i)).ordered, fun name a => ?_⟩
  rw [← Bindings.get?_eq_some_iff_mem, Namespace.get?_eq_some_iff h]

/-- Frames hold the same if the same was written to them last. -/
theorem bindings_eq (h : Grows history f) (h' : Grows history' f')
    (hsame : ∀ name a, ns.Latest history i name a ↔ ns.Latest history' i' name a) :
    ns.bindings (f.frame i) = ns.bindings (f'.frame i') := by
  apply Bindings.ext_get?
  intro name
  apply Option.ext
  intro a
  rw [Namespace.get?_eq_some_iff h, hsame, Namespace.get?_eq_some_iff h']

end names

theorem frame_eq (h : Grows history f) (h' : Grows history' f')
    (hvars : ∀ name v, Namespace.vars.Latest history i name v ↔
      Namespace.vars.Latest history' i' name v)
    (hfuncs : ∀ name fn, Namespace.funcs.Latest history i name fn ↔
      Namespace.funcs.Latest history' i' name fn) :
    f.frame i = f'.frame i' := by
  have hv : (f.frame i).vars = (f'.frame i').vars := bindings_eq Namespace.vars h h' hvars
  have hf : (f.frame i).funcs = (f'.frame i').funcs :=
    bindings_eq Namespace.funcs h h' hfuncs
  calc f.frame i = ⟨(f.frame i).vars, (f.frame i).funcs⟩ := rfl
    _ = f'.frame i' := by rw [hv, hf]

/-- Listings show the latest writes and nothing else. A session whose scope starts at a frame lists
the variables of that frame and then its functions, each name once and in increasing byte order, with
what was written to it last in that frame. After any other history in which the same was written last,
whatever else happened and in whatever order the names come when they are gathered, the listing is the
same text. -/
theorem listing_shows_latest_writes (h : Grows history f) {s : Session}
    (hs : s.scope = f.scope i) :
    (∃ vars funcs, Lists vars (Namespace.vars.Latest history i) ∧
      Lists funcs (Namespace.funcs.Latest history i) ∧
      s.listing = (vars.flatMap fun (name, v) => name ++ utf8 " = " ++ v.shown ++ utf8 "\n") ++
        funcs.flatMap fun (name, fn) =>
          utf8 "(defun " ++ name ++ utf8 " (" ++ Bytes.join (utf8 " ") fn.params ++
            utf8 ") ...)\n") ∧
    ∀ {history' f' i'} {s' : Session}, Grows history' f' → s'.scope = f'.scope i' →
      (∀ name v, Namespace.vars.Latest history i name v ↔
        Namespace.vars.Latest history' i' name v) →
      (∀ name fn, Namespace.funcs.Latest history i name fn ↔
        Namespace.funcs.Latest history' i' name fn) →
      ∀ vars funcs, Enumerates vars (Namespace.vars.Written history' i') →
        Enumerates funcs (Namespace.funcs.Written history' i') →
        s'.listing = s.listing ∧ s'.gathered vars funcs = s.listing := by
  have hframe : s.scope.frame = f.frame i := by rw [hs]; rfl
  constructor
  · refine ⟨_, _, lists_entries Namespace.vars h i, lists_entries Namespace.funcs h i, ?_⟩
    rw [listing, hframe]
    rfl
  · intro history' f' i' s' h' hs' hvars hfuncs vars funcs henumvars henumfuncs
    have hframe' : s'.scope.frame = f'.frame i' := by rw [hs']; rfl
    have hsame : s'.listing = s.listing := by
      rw [listing, listing, hframe, hframe', frame_eq h h' hvars hfuncs]
    refine ⟨hsame, ?_⟩
    rw [← hsame]
    apply gathered_eq_listing
    · rw [hframe']
      exact enumerates_written Namespace.vars h' henumvars
    · rw [hframe']
      exact enumerates_written Namespace.funcs h' henumfuncs

/-- A frame is what the operations make of an empty one. -/
theorem frame_eq_foldl (h : Grows history f) (i : Nat) :
    f.frame i = history.foldl (fun frame op => op.effect i frame) .empty := by
  induction h with
  | nil => rfl
  | snoc _ hop ih => rw [frame_perform hop, ih, List.foldl_append, List.foldl_cons, List.foldl_nil]

/-- A child's variable and an earlier value do not show, and the names may come in any order. -/
theorem listing_shows_latest_writes_reordered :
    let a := utf8 "a"
    let b := utf8 "b"
    let add : Function := ⟨utf8 "add", [utf8 "x", utf8 "y"], []⟩
    let history : List Operation := [.addRoot, .assign 0 b (.int 1), .addChild 0,
      .assign 1 (utf8 "z") .nil, .define 0 add.name add, .assign 0 a (.list [.int 1, .int 2]),
      .assign 0 b (.int 2)]
    let history' : List Operation := [.addRoot, .assign 0 a (.list [.int 1, .int 2]),
      .assign 0 b (.int 2), .define 0 add.name add]
    let f := history.foldl Forest.perform Forest.empty
    let f' := history'.foldl Forest.perform Forest.empty
    let s : Session := ⟨.standard, f.scope 0, 0⟩
    let s' : Session := ⟨.standard, f'.scope 0, 0⟩
    Grows history f ∧ Grows history' f' ∧
      s.listing = utf8 "a = (1 2)\nb = 2\n(defun add (x y) ...)\n" ∧
      s'.gathered [b, a] [add.name] = s.listing := by
  intro a b add history history' f f' s s'
  have h : Grows history f := by
    refine .snoc (.snoc (.snoc (.snoc (.snoc (.snoc (.snoc .nil ?_) ?_) ?_) ?_) ?_) ?_) ?_ <;>
      simp [Operation.InReach, size_perform, Operation.created?]
  have h' : Grows history' f' := by
    refine .snoc (.snoc (.snoc (.snoc .nil ?_) ?_) ?_) ?_ <;>
      simp [Operation.InReach, size_perform, Operation.created?]
  have hframe : f.frame 0 = f'.frame 0 := by
    rw [frame_eq_foldl h, frame_eq_foldl h']
    rfl
  refine ⟨h, h', ?_, ?_⟩
  · have hscope : s.scope.frame = f.frame 0 := rfl
    rw [listing, hscope, frame_eq_foldl h]
    decide +kernel
  · refine ((listing_shows_latest_writes h (s := s) rfl).2 h' rfl ?_ ?_ _ _ ?_ ?_).2
    · intro name v
      rw [← Namespace.get?_eq_some_iff h, ← Namespace.get?_eq_some_iff h', hframe]
    · intro name fn
      rw [← Namespace.get?_eq_some_iff h, ← Namespace.get?_eq_some_iff h', hframe]
    · refine ⟨by decide, fun name => ?_⟩
      simp [Namespace.Written, Namespace.vars, history', exists_or, or_comm]
    · refine ⟨by decide, fun name => ?_⟩
      simp [Namespace.Written, Namespace.funcs, history']

end history

end Session

end LineLisp
