import LineLisp.Eval

/-!
A forest of frames for a host that builds scopes by hand. Frames are numbered in the order of
creation and a child comes after its parent, so every chain of parents ends. A frame may get
children at any time, and they see what is written to it later.
-/

namespace LineLisp

structure Forest.Node where
  frame : Frame
  parent : Option Nat

structure Forest where
  nodes : List Forest.Node

namespace Forest

def empty : Forest :=
  ⟨[]⟩

def size (f : Forest) : Nat :=
  f.nodes.length

def parent? (f : Forest) (i : Nat) : Option Nat :=
  f.nodes[i]? >>= (·.parent)

/-- Adds a frame without a parent; its number is the size before. -/
def addRoot (f : Forest) : Forest :=
  ⟨f.nodes ++ [⟨.empty, none⟩]⟩

/-- Adds a frame below an existing one. -/
def addChild (f : Forest) (parent : Nat) : Forest :=
  ⟨f.nodes ++ [⟨.empty, some parent⟩]⟩

/-- The numbers from a frame up to its root. -/
def chain (f : Forest) (i : Nat) : List Nat :=
  match f.parent? i with
  | none => [i]
  | some p => if p < i then i :: f.chain p else [i]
termination_by i

def depth (f : Forest) (i : Nat) : Nat :=
  (f.chain i).length

def frame (f : Forest) (i : Nat) : Frame :=
  match f.nodes[i]? with
  | some node => node.frame
  | none => .empty

def setFrame (f : Forest) (i : Nat) (frame : Frame) : Forest :=
  ⟨f.nodes.modify i fun node => { node with frame := frame }⟩

/-- The scope that starts at a frame. -/
def scope (f : Forest) (i : Nat) : Scope :=
  ⟨f.frame i, (f.chain i).tail.map f.frame⟩

/-- Writes a scope back to the frames that it came from. -/
def update (f : Forest) (i : Nat) (s : Scope) : Forest :=
  ((f.chain i).zip s.frames).foldl (fun f (j, frame) => f.setFrame j frame) f

def assign (f : Forest) (i : Nat) (name : Bytes) (value : Value) : Forest :=
  f.update i ((f.scope i).assign name value)

def define (f : Forest) (i : Nat) (name : Bytes) (fn : Function) : Forest :=
  f.update i ((f.scope i).define name fn)

def value? (f : Forest) (i : Nat) (name : Bytes) : Option Value :=
  (f.scope i).value? name

def function? (f : Forest) (i : Nat) (name : Bytes) : Option Function :=
  (f.scope i).function? name

/-- Evaluates an expression in the scope that starts at a frame. -/
def evaluate (o : Eval.Options) (f : Forest) (i : Nat) (e : Expr) : Eval.Result × Forest :=
  let (result, scope) := Eval.evaluate o e (f.scope i)
  (result, f.update i scope)

end Forest

end LineLisp
