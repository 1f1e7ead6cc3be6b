import LineLisp.Proofs.Expr.Unplaced
import LineLisp.Proofs.Scope.Lookup
import Mathlib.Data.List.Forall2

/-!
Scopes without places. The only places that a scope holds are those in the bodies of its functions.
Scopes that differ in these only, by places that are related, answer look-ups alike and go on to
differ in these only under everything that is done to scopes.
-/

namespace LineLisp

namespace Bindings

variable {α β : Type}

/-- The same names, each bound to the image of what it was bound to. -/
def map (f : α → β) (b : Bindings α) : Bindings β where
  entries := b.entries.map fun entry => (entry.1, f entry.2)
  ordered := List.pairwise_map.mpr b.ordered

theorem get?_map (f : α → β) (b : Bindings α) (name : Bytes) :
    (b.map f).get? name = (b.get? name).map f := by
  change (b.entries.map fun entry => (entry.1, f entry.2)).lookup name =
    (b.entries.lookup name).map f
  induction b.entries with
  | nil => rfl
  | cons entry rest ih =>
      rw [List.map_cons, List.lookup_cons, List.lookup_cons, ih]
      cases name == entry.1 <;> rfl

end Bindings

/-- The function with every place in its body forgotten. -/
def Function.unplaced (f : Function) : Function :=
  { f with body := f.body.map Expr.unplaced }

def Frame.unplaced (frame : Frame) : Frame :=
  { frame with funcs := frame.funcs.map Function.unplaced }

/-- The scope with every place in the bodies of its functions forgotten. -/
def Scope.unplaced (s : Scope) : Scope :=
  ⟨s.frame.unplaced, s.outer.map Frame.unplaced⟩

namespace Function

/-- Whether two functions differ only in the places in their bodies, which are related. -/
structure SameUpTo (R : Span → Span → Prop) (f g : Function) : Prop where
  name : f.name = g.name
  params : f.params = g.params
  body : List.Forall₂ (Expr.SameUpTo R) f.body g.body

variable {R : Span → Span → Prop} {f g : Function}

theorem unplaced_eq_iff : f.unplaced = g.unplaced ↔ f.name = g.name ∧ f.params = g.params ∧
    f.body.map Expr.unplaced = g.body.map Expr.unplaced := by
  simp [unplaced]

theorem SameUpTo.unplaced (h : f.SameUpTo R g) : f.unplaced = g.unplaced := by
  refine unplaced_eq_iff.mpr ⟨h.name, h.params, Expr.map_unplaced_eq_iff.mpr ?_⟩
  exact h.body.imp fun _ _ he => he.unplaced

theorem SameUpTo.of_unplaced (h : f.unplaced = g.unplaced)
    (hR : ∀ parts ∈ (Expr.partsAll f.body).zip (Expr.partsAll g.body),
      R parts.1.span parts.2.span) : f.SameUpTo R g := by
  obtain ⟨hname, hparams, hbody⟩ := unplaced_eq_iff.mp h
  exact ⟨hname, hparams, Expr.SameUpTo.forall₂_of_unplaced hbody hR⟩

end Function

namespace Frame

structure SameUpTo (R : Span → Span → Prop) (frame frame' : Frame) : Prop where
  vars : frame.vars = frame'.vars
  funcs : ∀ name,
    Option.Rel (Function.SameUpTo R) (frame.funcs.get? name) (frame'.funcs.get? name)

variable {R : Span → Span → Prop} {frame frame' : Frame}

theorem SameUpTo.refl (hR : ∀ span, R span span) (frame : Frame) : frame.SameUpTo R frame := by
  refine ⟨rfl, fun name => ?_⟩
  cases frame.funcs.get? name with
  | none => exact .none
  | some f => exact .some ⟨rfl, rfl, List.forall₂_same.mpr fun e _ => .refl hR e⟩

theorem SameUpTo.unplaced (h : frame.SameUpTo R frame') : frame.unplaced = frame'.unplaced := by
  have hfuncs : frame.funcs.map Function.unplaced = frame'.funcs.map Function.unplaced := by
    refine Bindings.ext_get? fun name => ?_
    have hget := h.funcs name
    rw [Bindings.get?_map, Bindings.get?_map]
    generalize frame.funcs.get? name = found at hget ⊢
    generalize frame'.funcs.get? name = found' at hget ⊢
    cases hget with
    | none => rfl
    | some hf => exact congrArg some hf.unplaced
  rw [Frame.unplaced, Frame.unplaced, h.vars, hfuncs]

theorem SameUpTo.of_unplaced (h : frame.unplaced = frame'.unplaced)
    (hR : ∀ name f g, frame.funcs.get? name = some f → frame'.funcs.get? name = some g →
      ∀ parts ∈ (Expr.partsAll f.body).zip (Expr.partsAll g.body),
        R parts.1.span parts.2.span) : frame.SameUpTo R frame' := by
  obtain ⟨hvars, hfuncs⟩ := Frame.mk.inj h
  refine ⟨hvars, fun name => ?_⟩
  have hget := congrArg (Bindings.get? · name) hfuncs
  simp only [Bindings.get?_map] at hget
  cases hf : frame.funcs.get? name <;> cases hg : frame'.funcs.get? name <;>
    simp only [hf, hg] at hget
  · exact .none
  · cases hget
  · cases hget
  · exact .some (.of_unplaced (Option.some.inj hget) (hR name _ _ hf hg))

end Frame

namespace Scope

/-- Whether two scopes differ only in the places in the bodies of functions, which are related. -/
def SameUpTo (R : Span → Span → Prop) (s t : Scope) : Prop :=
  List.Forall₂ (Frame.SameUpTo R) s.frames t.frames

/-- Whether two spans are the places of the same part in the body of a function, as two scopes
hold it. -/
def Counterparts (s t : Scope) (span span' : Span) : Prop :=
  ∃ frames ∈ s.frames.zip t.frames, ∃ name f g,
    frames.1.funcs.get? name = some f ∧ frames.2.funcs.get? name = some g ∧
    ∃ parts ∈ (Expr.partsAll f.body).zip (Expr.partsAll g.body),
      parts.1.span = span ∧ parts.2.span = span'

theorem unplaced_eq_iff {s t : Scope} : s.unplaced = t.unplaced ↔
    List.Forall₂ (fun frame frame' => frame.unplaced = frame'.unplaced) s.frames t.frames := by
  have hframes : s.unplaced = t.unplaced ↔
      s.frames.map Frame.unplaced = t.frames.map Frame.unplaced := by
    simp [unplaced, frames]
  rw [hframes, ← List.forall₂_eq_eq_eq, List.forall₂_map_left_iff, List.forall₂_map_right_iff]

private theorem findSome?_rel {α β : Type} {related : β → β → Prop} {p : α → Option β}
    {as bs : List α} (h : List.Forall₂ (fun a b => Option.Rel related (p a) (p b)) as bs) :
    Option.Rel related (as.findSome? p) (bs.findSome? p) := by
  induction h with
  | nil => exact .none
  | @cons a b _ _ h _ ih =>
      rw [List.findSome?_cons, List.findSome?_cons]
      generalize p a = found at h ⊢
      generalize p b = found' at h ⊢
      cases h with
      | none => exact ih
      | some h => exact .some h

theorem findSome?_eq_of_forall₂ {α β : Type} {get : α → Option β} {as bs : List α}
    (h : List.Forall₂ (fun a b => get a = get b) as bs) : as.findSome? get = bs.findSome? get := by
  induction h with
  | nil => rfl
  | cons hab _ ih => rw [List.findSome?_cons, List.findSome?_cons, hab, ih]

/-- Chains that are related frame by frame stay so without their innermost frames. -/
theorem forall₂_leave {related : Frame → Frame → Prop} {s t : Scope}
    (h : List.Forall₂ related s.frames t.frames) :
    List.Forall₂ related s.leave.frames t.leave.frames := by
  obtain ⟨frame, outer⟩ := s
  obtain ⟨frame', outer'⟩ := t
  obtain - | ⟨hframe, houter⟩ := h
  cases houter with
  | nil => exact .cons hframe .nil
  | cons hnext hrest => exact .cons hnext hrest

namespace SameUpTo

variable {R : Span → Span → Prop} {s t : Scope}

theorem unplaced (h : s.SameUpTo R t) : s.unplaced = t.unplaced :=
  unplaced_eq_iff.mpr (h.imp fun _ _ hframe => hframe.unplaced)

/-- It is enough to relate the places of the same parts. -/
theorem of_unplaced (h : s.unplaced = t.unplaced)
    (hR : ∀ span span', s.Counterparts t span span' → R span span') : s.SameUpTo R t := by
  rw [unplaced_eq_iff, List.forall₂_iff_zip] at h
  refine List.forall₂_iff_zip.mpr ⟨h.1, fun hzip => .of_unplaced (h.2 hzip) ?_⟩
  intro name f g hf hg parts hparts
  exact hR _ _ ⟨_, hzip, name, f, g, hf, hg, parts, hparts, rfl, rfl⟩

theorem value? (h : s.SameUpTo R t) (name : Bytes) : s.value? name = t.value? name :=
  findSome?_eq_of_forall₂ (h.imp fun _ _ hframe => by rw [hframe.vars])

theorem function? (h : s.SameUpTo R t) (name : Bytes) :
    Option.Rel (Function.SameUpTo R) (s.function? name) (t.function? name) :=
  findSome?_rel (h.imp fun _ _ hframe => hframe.funcs name)

theorem isSome_function? (h : s.SameUpTo R t) (name : Bytes) :
    (s.function? name).isSome = (t.function? name).isSome := by
  have hfunction := h.function? name
  revert hfunction
  cases s.function? name <;> cases t.function? name <;> rintro ⟨⟩ <;> rfl

theorem assign (h : s.SameUpTo R t) (name : Bytes) (v : Value) :
    (s.assign name v).SameUpTo R (t.assign name v) := by
  obtain - | ⟨hframe, houter⟩ := h
  refine .cons ⟨?_, hframe.funcs⟩ houter
  exact congrArg (Bindings.insert · name v) hframe.vars

theorem define (h : s.SameUpTo R t) (name : Bytes) {f g : Function} (hfg : f.SameUpTo R g) :
    (s.define name f).SameUpTo R (t.define name g) := by
  obtain - | ⟨hframe, houter⟩ := h
  refine .cons ⟨hframe.vars, fun other => ?_⟩ houter
  simp only [Scope.define, Bindings.get?_insert]
  split
  · exact .some hfg
  · exact hframe.funcs other

theorem enter (hR : ∀ span, R span span) (h : s.SameUpTo R t) (frame : Frame) :
    (s.enter frame).SameUpTo R (t.enter frame) :=
  .cons (.refl hR frame) h

theorem leave (h : s.SameUpTo R t) : s.leave.SameUpTo R t.leave :=
  forall₂_leave h

end SameUpTo

end Scope

end LineLisp
