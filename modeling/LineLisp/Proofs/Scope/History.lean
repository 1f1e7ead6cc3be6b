import LineLisp.Proofs.Scope.Bindings
import LineLisp.Proofs.Scope.Forest
import Mathlib.Data.List.Basic
import Mathlib.Data.List.Induction
import Mathlib.Logic.Relation

/-!
Forests by their history. Whatever a host does, in any order, frames only ever get parents that were
there before them, so every chain of parents ends at a root. What a look-up finds is known from the
history alone: the nearest frame on the chain to which the name was ever written decides, and there
the latest write counts, also one that came after the frame where the look-up starts. Everything
else that is written leaves the look-up as it is.
-/

namespace LineLisp.Forest

/-- What a host does to a forest. -/
inductive Operation where
  | addRoot
  | addChild (parent : Nat)
  | assign (i : Nat) (name : Bytes) (v : Value)
  | define (i : Nat) (name : Bytes) (fn : Function)

namespace Operation

/-- Whether an operation refers only to frames that are there, of which there are `size`. -/
def InReach (size : Nat) : Operation → Prop
  | .addRoot => True
  | .addChild i | .assign i _ _ | .define i _ _ => i < size

/-- The parent of the frame that an operation creates, if it creates one. -/
def created? : Operation → Option (Option Nat)
  | .addRoot => some none
  | .addChild parent => some (some parent)
  | .assign _ _ _ | .define _ _ _ => none

/-- What an operation makes of what the frame `i` holds. -/
def effect (i : Nat) (frame : Frame) : Operation → Frame
  | .addRoot | .addChild _ => frame
  | .assign j name v => if j = i then { frame with vars := frame.vars.insert name v } else frame
  | .define j name fn => if j = i then { frame with funcs := frame.funcs.insert name fn } else frame

end Operation

def perform (f : Forest) : Operation → Forest
  | .addRoot => f.addRoot
  | .addChild parent => f.addChild parent
  | .assign i name v => f.assign i name v
  | .define i name fn => f.define i name fn

/-- Whether a forest comes of a history of operations, each of which refers to frames that are there
already. -/
inductive Grows : List Operation → Forest → Prop where
  | nil : Grows [] .empty
  | snoc {history : List Operation} {f : Forest} {op : Operation} (h : Grows history f)
      (hop : op.InReach f.size) : Grows (history ++ [op]) (f.perform op)

/-- The parents of all frames, in the order of creation. -/
def parents (f : Forest) : List (Option Nat) :=
  f.nodes.map (·.parent)

/-- Whether a list goes from a frame to its parent and so on, up to a root. -/
inductive IsChain (f : Forest) : Nat → List Nat → Prop where
  | root {i : Nat} (h : f.parent? i = none) : IsChain f i [i]
  | child {i p : Nat} {rest : List Nat} (h : f.parent? i = some p) (hrest : IsChain f p rest) :
      IsChain f i (i :: rest)

section shape

variable {f : Forest} {history : List Operation}

theorem parent?_eq (f : Forest) (i : Nat) : f.parent? i = f.parents[i]?.join := by
  unfold parent? parents
  rw [List.getElem?_map]
  cases f.nodes[i]? <;> rfl

theorem size_eq (f : Forest) : f.size = f.parents.length :=
  (List.length_map _).symm

theorem parents_setFrame (f : Forest) (i : Nat) (frame : Frame) :
    (f.setFrame i frame).parents = f.parents := by
  apply List.ext_getElem?
  intro j
  simp only [parents, setFrame, List.getElem?_map, List.getElem?_modify]
  cases f.nodes[j]? with
  | none => rfl
  | some node => by_cases h : i = j <;> simp [h]

/-- Parents are given at creation and never change. -/
theorem parents_perform (f : Forest) (op : Operation) :
    (f.perform op).parents = f.parents ++ op.created?.toList := by
  cases op with
  | addRoot => simp [perform, addRoot, parents, Operation.created?]
  | addChild parent => simp [perform, addChild, parents, Operation.created?]
  | assign i name v =>
      rw [perform, assign_eq_setFrame, parents_setFrame]
      exact (List.append_nil _).symm
  | define i name fn =>
      rw [perform, define_eq_setFrame, parents_setFrame]
      exact (List.append_nil _).symm

theorem size_perform (f : Forest) (op : Operation) :
    (f.perform op).size = f.size + op.created?.toList.length := by
  rw [size_eq, parents_perform, List.length_append, ← size_eq]

theorem Grows.parents_eq (h : Grows history f) : f.parents = history.filterMap (·.created?) := by
  induction h with
  | nil => rfl
  | @snoc history f op _ _ ih =>
      rw [parents_perform, ih, List.filterMap_append]
      cases hop : op.created? <;> simp [hop]

/-- A parent is there before its children. -/
theorem Grows.parent_lt (h : Grows history f) {i p : Nat} (hp : f.parent? i = some p) : p < i := by
  induction h with
  | nil => simp [parent?, empty] at hp
  | @snoc history f op _ hop ih =>
      rw [parent?_eq, parents_perform, List.getElem?_append] at hp
      split at hp
      · apply ih
        rw [parent?_eq]
        exact hp
      · rename_i hnew
        rw [← size_eq] at hp hnew
        cases op with
        | addChild parent =>
            have hparent : parent < f.size := hop
            cases hoffset : i - f.size with
            | zero =>
                rw [hoffset] at hp
                cases hp
                omega
            | succ n =>
                rw [hoffset] at hp
                cases hp
        | addRoot => cases hoffset : i - f.size <;> rw [hoffset] at hp <;> cases hp
        | assign j name v => cases hp
        | define j name fn => cases hp

theorem parent?_perform {op : Operation} {i : Nat} (hi : i < f.size) :
    (f.perform op).parent? i = f.parent? i := by
  rw [size_eq] at hi
  rw [parent?_eq, parent?_eq, parents_perform, List.getElem?_append_left hi]

/-- What is done to a forest leaves the chains of its frames as they are. -/
theorem chain_perform {op : Operation} {i : Nat} (hi : i < f.size) :
    (f.perform op).chain i = f.chain i := by
  induction i using Nat.strongRecOn with
  | ind i ih =>
      unfold chain
      rw [parent?_perform hi]
      split
      · rfl
      · split
        · rename_i p _ hlt
          rw [ih p hlt (by omega)]
        · rfl

theorem Grows.isChain (h : Grows history f) (i : Nat) : IsChain f i (f.chain i) := by
  induction i using Nat.strongRecOn with
  | ind i ih =>
      unfold chain
      split
      · rename_i hroot
        exact .root hroot
      · rename_i p hp
        have hlt := h.parent_lt hp
        rw [if_pos hlt]
        exact .child hp (ih p hlt)

theorem Grows.eq_chain (h : Grows history f) {i : Nat} {list : List Nat} (hlist : IsChain f i list) :
    list = f.chain i := by
  induction hlist with
  | root hroot =>
      unfold chain
      rw [hroot]
  | child hp _ ih =>
      have hlt := h.parent_lt hp
      unfold chain
      rw [hp, ih]
      exact (if_pos hlt).symm

theorem Grows.acyclic (h : Grows history f) (i : Nat) :
    ¬ Relation.TransGen (fun i p => f.parent? i = some p) i i := by
  have hless : ∀ j, Relation.TransGen (fun i p => f.parent? i = some p) i j → j < i := by
    intro j hj
    induction hj with
    | single hp => exact h.parent_lt hp
    | tail _ hp ih => exact Nat.lt_trans (h.parent_lt hp) ih
  exact fun hcycle => Nat.lt_irrefl i (hless i hcycle)

end shape

/-- A new frame is as empty as a missing one. -/
theorem frame_append (f : Forest) (parent : Option Nat) (i : Nat) :
    (⟨f.nodes ++ [⟨.empty, parent⟩]⟩ : Forest).frame i = f.frame i := by
  unfold frame
  rcases Nat.lt_trichotomy i f.nodes.length with hlt | rfl | hgt
  · rw [List.getElem?_append_left hlt]
  · simp
  · have hlength : (f.nodes ++ [(⟨.empty, parent⟩ : Node)]).length ≤ i := by
      rw [List.length_append, List.length_singleton]
      omega
    rw [List.getElem?_eq_none hlength, List.getElem?_eq_none (by omega)]

/-- An operation has its effect on each frame by itself. -/
theorem frame_perform {f : Forest} {op : Operation} (hop : op.InReach f.size) (i : Nat) :
    (f.perform op).frame i = op.effect i (f.frame i) := by
  cases op with
  | addRoot => exact f.frame_append none i
  | addChild parent => exact f.frame_append (some parent) i
  | assign j name v =>
      have hj : j < f.size := hop
      rw [perform, assign_eq_setFrame, frame_setFrame, Operation.effect]
      by_cases h : j = i
      · subst h
        simp [hj]
      · simp [h]
  | define j name fn =>
      have hj : j < f.size := hop
      rw [perform, define_eq_setFrame, frame_setFrame, Operation.effect]
      by_cases h : j = i
      · subst h
        simp [hj]
      · simp [h]

/-- One of the two kinds of bindings that frames hold, and how they are written. -/
structure Namespace (α : Type) where
  bindings : Frame → Bindings α
  write : Nat → Bytes → α → Operation
  bindings_empty : bindings .empty = .empty
  injective : ∀ {i j name other a b}, write i name a = write j other b →
    i = j ∧ name = other ∧ a = b
  get?_write : ∀ i name a frame,
    (bindings ((write i name a).effect i frame)).get? name = some a
  get?_effect : ∀ {op i name}, (∀ a, op ≠ write i name a) → ∀ frame,
    (bindings (op.effect i frame)).get? name = (bindings frame).get? name

namespace Namespace

def vars : Namespace Value where
  bindings := Frame.vars
  write := .assign
  bindings_empty := rfl
  injective := by
    rintro i j name other v w ⟨⟩
    exact ⟨rfl, rfl, rfl⟩
  get?_write i name v frame := by simp [Operation.effect]
  get?_effect := by
    intro op i name hother frame
    cases op with
    | assign j other v =>
        by_cases hj : j = i
        · have hne : name ≠ other := by
            rintro rfl
            exact hother v (hj ▸ rfl)
          simp [Operation.effect, hj, hne]
        · simp [Operation.effect, hj]
    | define j other fn => by_cases hj : j = i <;> simp [Operation.effect, hj]
    | addRoot => rfl
    | addChild parent => rfl

def funcs : Namespace Function where
  bindings := Frame.funcs
  write := .define
  bindings_empty := rfl
  injective := by
    rintro i j name other fn fn' ⟨⟩
    exact ⟨rfl, rfl, rfl⟩
  get?_write i name fn frame := by simp [Operation.effect]
  get?_effect := by
    intro op i name hother frame
    cases op with
    | define j other fn =>
        by_cases hj : j = i
        · have hne : name ≠ other := by
            rintro rfl
            exact hother fn (hj ▸ rfl)
          simp [Operation.effect, hj, hne]
        · simp [Operation.effect, hj]
    | assign j other v => by_cases hj : j = i <;> simp [Operation.effect, hj]
    | addRoot => rfl
    | addChild parent => rfl

variable {α : Type} (ns : Namespace α)

/-- Whether a name was ever written in a frame. -/
def Written (history : List Operation) (i : Nat) (name : Bytes) : Prop :=
  ∃ a, ns.write i name a ∈ history

/-- Whether the last time that a name was written in a frame, it got this value. -/
def Latest (history : List Operation) (i : Nat) (name : Bytes) (a : α) : Prop :=
  ∃ before after, history = before ++ ns.write i name a :: after ∧ ∀ b, ns.write i name b ∉ after

/-- Whether a look-up of a name that starts from `i` is decided in the frame `g`: it is the first
on the chain in which the name was ever written. -/
def Decides (history : List Operation) (f : Forest) (i : Nat) (name : Bytes) (g : Nat) : Prop :=
  ∃ nearer outer, IsChain f i (nearer ++ g :: outer) ∧ ns.Written history g name ∧
    ∀ j ∈ nearer, ¬ ns.Written history j name

/-- Whether look-ups are answered by the history: what was written last in the frame that decides is
found, and nothing is found if no frame does. -/
def Answers (history : List Operation) (f : Forest) (lookup : Nat → Bytes → Option α) : Prop :=
  ∀ i name,
    (∀ a, lookup i name = some a ↔
      ∃ g, ns.Decides history f i name g ∧ ns.Latest history g name a) ∧
    ((lookup i name).isSome ↔ ∃ g, ns.Decides history f i name g)

/-- Whether an operation leaves all look-ups as they were, but those that are decided afterwards by
what it writes. -/
def Spares (history : List Operation) (f : Forest) (op : Operation)
    (lookup : Forest → Nat → Bytes → Option α) : Prop :=
  ∀ i < f.size, ∀ name,
    (∀ g a, ns.Decides (history ++ [op]) (f.perform op) i name g → op ≠ ns.write g name a) →
    lookup (f.perform op) i name = lookup f i name

/-- The look-up of a name along the chain of a frame. -/
def find? (f : Forest) (i : Nat) (name : Bytes) : Option α :=
  (f.chain i).findSome? fun j => (ns.bindings (f.frame j)).get? name

section history

variable {ns} {history : List Operation} {f : Forest} {op : Operation} {i : Nat} {name : Bytes}

theorem latest_snoc {a : α} : ns.Latest (history ++ [op]) i name a ↔
    op = ns.write i name a ∨ (∀ b, op ≠ ns.write i name b) ∧ ns.Latest history i name a := by
  constructor
  · rintro ⟨before, after, heq, hafter⟩
    rcases List.eq_nil_or_concat' after with rfl | ⟨after, last, rfl⟩
    · exact .inl (List.singleton_inj.mp (List.append_inj' heq rfl).2)
    · have hsplit : history ++ [op] = (before ++ ns.write i name a :: after) ++ [last] := by
        simpa using heq
      obtain ⟨rfl, hlast⟩ := List.append_inj' hsplit rfl
      obtain rfl := List.singleton_inj.mp hlast
      simp only [List.mem_append, List.mem_singleton, not_or] at hafter
      exact .inr ⟨fun b hb => (hafter b).2 hb.symm, before, after, rfl, fun b => (hafter b).1⟩
  · rintro (rfl | ⟨hother, before, after, rfl, hafter⟩)
    · exact ⟨history, [], rfl, by simp⟩
    · refine ⟨before, after ++ [op], by simp, fun b hb => ?_⟩
      rcases List.mem_append.mp hb with hb | hb
      · exact hafter b hb
      · exact hother b (List.mem_singleton.mp hb).symm

/-- A frame holds what was written to it last. -/
theorem get?_eq_some_iff (h : Grows history f) (i : Nat) (name : Bytes) (a : α) :
    (ns.bindings (f.frame i)).get? name = some a ↔ ns.Latest history i name a := by
  induction h with
  | nil =>
      have hempty : (empty : Forest).frame i = .empty := rfl
      rw [hempty, ns.bindings_empty]
      simp [Latest, Bindings.get?, Bindings.empty]
  | @snoc history f op _ hop ih =>
      rw [frame_perform hop, latest_snoc]
      by_cases hwrite : ∃ b, op = ns.write i name b
      · obtain ⟨b, rfl⟩ := hwrite
        rw [ns.get?_write]
        constructor
        · rintro ⟨⟩
          exact .inl rfl
        · rintro (heq | ⟨hother, -⟩)
          · rw [(ns.injective heq).2.2]
          · exact absurd rfl (hother b)
      · have hother : ∀ b, op ≠ ns.write i name b := fun b hb => hwrite ⟨b, hb⟩
        rw [ns.get?_effect hother, ih]
        exact ⟨fun hlatest => .inr ⟨hother, hlatest⟩,
          fun hlatest => hlatest.elim (fun heq => absurd heq (hother a)) (·.2)⟩

theorem Latest.written {a : α} (h : ns.Latest history i name a) : ns.Written history i name := by
  obtain ⟨before, after, rfl, -⟩ := h
  exact ⟨a, by simp⟩

theorem Written.exists_latest (h : ns.Written history i name) :
    ∃ a, ns.Latest history i name a := by
  induction history using List.reverseRecOn with
  | nil => simp [Written] at h
  | append_singleton history op ih =>
      by_cases hwrite : ∃ b, op = ns.write i name b
      · obtain ⟨b, rfl⟩ := hwrite
        exact ⟨b, latest_snoc.mpr (.inl rfl)⟩
      · have hother : ∀ b, op ≠ ns.write i name b := fun b hb => hwrite ⟨b, hb⟩
        obtain ⟨b, hb⟩ := h
        have hbefore : ns.Written history i name := by
          rcases List.mem_append.mp hb with hb | hb
          · exact ⟨b, hb⟩
          · exact absurd (List.mem_singleton.mp hb).symm (hother b)
        obtain ⟨a, ha⟩ := ih hbefore
        exact ⟨a, latest_snoc.mpr (.inr ⟨hother, ha⟩)⟩

theorem get?_eq_none_iff (h : Grows history f) (i : Nat) (name : Bytes) :
    (ns.bindings (f.frame i)).get? name = none ↔ ¬ ns.Written history i name := by
  rw [Option.eq_none_iff_forall_ne_some]
  constructor
  · intro hnone hwritten
    obtain ⟨a, ha⟩ := hwritten.exists_latest
    exact hnone a ((get?_eq_some_iff h i name a).mpr ha)
  · intro hwritten a ha
    exact hwritten ((get?_eq_some_iff h i name a).mp ha).written

/-- A look-up finds what was written last in the frame that decides it. -/
theorem find?_eq_some_iff (h : Grows history f) {a : α} :
    ns.find? f i name = some a ↔
      ∃ g, ns.Decides history f i name g ∧ ns.Latest history g name a := by
  rw [find?, List.findSome?_eq_some_iff]
  constructor
  · rintro ⟨nearer, g, outer, hchain, hget, hnearer⟩
    have hlatest := (get?_eq_some_iff h g name a).mp hget
    refine ⟨g, ⟨nearer, outer, ?_, hlatest.written, fun j hj => ?_⟩, hlatest⟩
    · rw [← hchain]
      exact h.isChain i
    · exact (get?_eq_none_iff h j name).mp (hnearer j hj)
  · rintro ⟨g, ⟨nearer, outer, hchain, -, hnearer⟩, hlatest⟩
    refine ⟨nearer, g, outer, (h.eq_chain hchain).symm, ?_, fun j hj => ?_⟩
    · exact (get?_eq_some_iff h g name a).mpr hlatest
    · exact (get?_eq_none_iff h j name).mpr (hnearer j hj)

theorem isSome_find?_iff (h : Grows history f) :
    (ns.find? f i name).isSome ↔ ∃ g, ns.Decides history f i name g := by
  rw [Option.isSome_iff_exists]
  constructor
  · rintro ⟨a, ha⟩
    obtain ⟨g, hg, -⟩ := (find?_eq_some_iff h).mp ha
    exact ⟨g, hg⟩
  · rintro ⟨g, nearer, outer, hchain, hwritten, hnearer⟩
    obtain ⟨a, ha⟩ := hwritten.exists_latest
    exact ⟨a, (find?_eq_some_iff h).mpr ⟨g, ⟨nearer, outer, hchain, hwritten, hnearer⟩, ha⟩⟩

theorem get?_perform (hop : op.InReach f.size) (hother : ∀ a, op ≠ ns.write i name a) :
    (ns.bindings ((f.perform op).frame i)).get? name = (ns.bindings (f.frame i)).get? name := by
  rw [frame_perform hop]
  exact ns.get?_effect hother (f.frame i)

theorem findSome?_perform (hop : op.InReach f.size) {frames : List Nat}
    (hother : ∀ j ∈ frames, ∀ a, op ≠ ns.write j name a) :
    (frames.findSome? fun j => (ns.bindings ((f.perform op).frame j)).get? name) =
      frames.findSome? fun j => (ns.bindings (f.frame j)).get? name := by
  induction frames with
  | nil => rfl
  | cons j rest ih =>
      rw [List.findSome?_cons, List.findSome?_cons, get?_perform hop (hother j (by simp)),
        ih fun j hj => hother j (by simp [hj])]

/-- An operation leaves a look-up as it is unless it writes what decides the look-up afterwards. -/
theorem find?_perform (h : Grows history f) (hop : op.InReach f.size) (hi : i < f.size)
    (hother : ∀ g a, ns.Decides (history ++ [op]) (f.perform op) i name g →
      op ≠ ns.write g name a) :
    ns.find? (f.perform op) i name = ns.find? f i name := by
  have hgrows : Grows (history ++ [op]) (f.perform op) := h.snoc hop
  have hchain := hgrows.isChain i
  rw [chain_perform hi] at hchain
  rw [find?, find?, chain_perform hi]
  by_cases hwrite : ∃ j ∈ f.chain i, ∃ a, op = ns.write j name a
  · obtain ⟨j, hj, a, rfl⟩ := hwrite
    obtain ⟨nearer, outer, hsplit, hnot⟩ := List.eq_append_cons_of_mem hj
    rw [hsplit] at hchain ⊢
    have hothers : ∀ k ∈ nearer, ∀ b, ns.write j name a ≠ ns.write k name b := by
      intro k hk b heq
      rw [(ns.injective heq).1] at hnot
      exact hnot hk
    -- The frame that is written does not decide, so a nearer one does.
    have hnearer : ∃ k ∈ nearer, ns.Written (history ++ [ns.write j name a]) k name := by
      by_contra hnone
      refine hother j a ⟨nearer, outer, hchain, ⟨a, by simp⟩, fun k hk hwritten => ?_⟩ rfl
      exact hnone ⟨k, hk, hwritten⟩
    obtain ⟨k, hk, hwritten⟩ := hnearer
    have hsome : (nearer.findSome? fun j => (ns.bindings (f.frame j)).get? name).isSome := by
      rw [← findSome?_perform hop hothers, List.findSome?_isSome_iff]
      refine ⟨k, hk, ?_⟩
      rw [Option.isSome_iff_ne_none, ne_eq, get?_eq_none_iff hgrows]
      exact not_not.mpr hwritten
    rw [List.findSome?_append, List.findSome?_append, findSome?_perform hop hothers,
      Option.or_of_isSome hsome, Option.or_of_isSome hsome]
  · apply findSome?_perform hop
    intro j hj a heq
    exact hwrite ⟨j, hj, a, heq⟩

end history

end Namespace

section lookups

variable (f : Forest) (i : Nat) (name : Bytes)

theorem value?_eq_find? : f.value? i name = Namespace.vars.find? f i name := by
  rw [value?, Scope.value?, frames_scope, List.findSome?_map]
  rfl

theorem function?_eq_find? : f.function? i name = Namespace.funcs.find? f i name := by
  rw [function?, Scope.function?, frames_scope, List.findSome?_map]
  rfl

end lookups

theorem depth_root {f : Forest} {i : Nat} (h : f.parent? i = none) : f.depth i = 1 := by
  unfold depth chain
  rw [h]
  rfl

theorem Grows.depth_child {history : List Operation} {f : Forest} (h : Grows history f) {i p : Nat}
    (hp : f.parent? i = some p) : f.depth i = 1 + f.depth p := by
  have hchain := h.eq_chain (.child hp (h.isChain p))
  rw [depth, ← hchain, List.length_cons, depth]
  omega

/-- Look-ups find the latest write in the nearest frame. Whatever history a forest has, its frames
have the parents that they were created with, no chain of parents comes back to where it was, each
ends at a root, and the depth of a frame is one more than that of its parent. Variables and functions
are each looked up as the history tells. Whatever is done next changes no look-up but those that are
decided by what it writes. -/
theorem lookups_find_latest_write {history : List Operation} {f : Forest} (h : Grows history f) :
    f.parents = history.filterMap (·.created?) ∧
    (∀ i, ¬ Relation.TransGen (fun i p => f.parent? i = some p) i i) ∧
    (∀ i, ∃ chain, IsChain f i chain ∧ f.depth i = chain.length) ∧
    (∀ i, f.parent? i = none → f.depth i = 1) ∧
    (∀ i p, f.parent? i = some p → f.depth i = 1 + f.depth p) ∧
    (Namespace.vars.Answers history f f.value? ∧
      Namespace.funcs.Answers history f f.function?) ∧
    ∀ op : Operation, op.InReach f.size →
      Namespace.vars.Spares history f op value? ∧ Namespace.funcs.Spares history f op function? := by
  refine ⟨h.parents_eq, h.acyclic, fun i => ⟨f.chain i, h.isChain i, rfl⟩, fun _ => depth_root,
    fun _ _ => h.depth_child, ⟨fun i name => ?_, fun i name => ?_⟩, fun op hop => ⟨?_, ?_⟩⟩
  · rw [value?_eq_find?]
    exact ⟨fun _ => Namespace.find?_eq_some_iff h, Namespace.isSome_find?_iff h⟩
  · rw [function?_eq_find?]
    exact ⟨fun _ => Namespace.find?_eq_some_iff h, Namespace.isSome_find?_iff h⟩
  · intro i hi name hother
    rw [value?_eq_find?, value?_eq_find?]
    exact Namespace.find?_perform h hop hi hother
  · intro i hi name hother
    rw [function?_eq_find?, function?_eq_find?]
    exact Namespace.find?_perform h hop hi hother

/-- A frame below a child of a root sees what is written to the root later, but not the later write
to a name that the child has for itself. -/
theorem lookups_find_latest_write_hidden :
    let x := utf8 "x"
    let y := utf8 "y"
    let history : List Operation := [.addRoot, .addChild 0, .assign 0 x (.int 1),
      .assign 1 x (.int 2), .addChild 1, .assign 0 x (.int 3), .assign 0 y (.int 4)]
    let f := history.foldl perform empty
    let op : Operation := .assign 0 x (.int 9)
    Grows history f ∧ f.value? 2 y = some (.int 4) ∧ f.value? 2 x = some (.int 2) ∧
      (f.perform op).value? 2 x = f.value? 2 x := by
  intro x y history f op
  have hxy : x ≠ y := by decide
  have hgrows : Grows history f := by
    refine .snoc (.snoc (.snoc (.snoc (.snoc (.snoc (.snoc .nil ?_) ?_) ?_) ?_) ?_) ?_) ?_ <;>
      simp [Operation.InReach, size_perform, Operation.created?]
  have hreach : op.InReach f.size := by
    simp [op, f, history, Operation.InReach, size_perform, Operation.created?]
  have hchain : IsChain f 2 [2, 1, 0] := by
    refine .child ?_ (.child ?_ (.root ?_)) <;>
      rw [parent?_eq, hgrows.parents_eq] <;> rfl
  obtain ⟨-, -, -, -, -, ⟨hanswers, -⟩, hspares⟩ := lookups_find_latest_write hgrows
  refine ⟨hgrows, ?_, ?_, ?_⟩
  · refine ((hanswers 2 y).1 _).mpr ⟨0, ⟨[2, 1], [], hchain, ?_, ?_⟩, ?_⟩
    · exact ⟨.int 4, by simp [history, Namespace.vars]⟩
    · simp [Namespace.Written, history, Namespace.vars, hxy.symm]
    · exact ⟨history.take 6, [], rfl, by simp⟩
  · refine ((hanswers 2 x).1 _).mpr ⟨1, ⟨[2], [0], hchain, ?_, ?_⟩, ?_⟩
    · exact ⟨.int 2, by simp [history, Namespace.vars]⟩
    · simp [Namespace.Written, history, Namespace.vars]
    · refine ⟨history.take 3, history.drop 4, rfl, ?_⟩
      simp [history, Namespace.vars]
  · have hsize : 2 < f.size := by simp [f, history, size_perform, Operation.created?]
    refine (hspares op hreach).1 2 hsize x ?_
    -- The root is written, but a frame on the way to it has the name.
    rintro g v ⟨nearer, outer, hlist, -, hnearer⟩ heq
    obtain ⟨rfl, -, -⟩ := Namespace.vars.injective heq
    have hsplit : nearer ++ 0 :: outer = [2, 1, 0] := by
      rw [(hgrows.snoc hreach).eq_chain hlist, chain_perform hsize, ← hgrows.eq_chain hchain]
    have hone : 1 ∈ nearer := by
      rcases nearer with _ | ⟨a, _ | ⟨b, nearer⟩⟩ <;> simp at hsplit
      simp [hsplit.2.1]
    apply hnearer 1 hone
    exact ⟨.int 2, by simp [history, Namespace.vars]⟩

end LineLisp.Forest
