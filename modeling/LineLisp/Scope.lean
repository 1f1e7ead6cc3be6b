import LineLisp.Scope.Bindings
import LineLisp.Value

/-!
Scopes: a chain of frames, each with variables and functions in separate namespaces. Look-up
goes from the innermost frame outwards; writing touches the innermost frame only.
-/

namespace LineLisp

/-- A function made by `defun`. It may be stored under another name than its own, but only a
host does that. -/
structure Function where
  name : Bytes
  params : List Bytes
  body : List Expr

def Function.text (f : Function) : Bytes :=
  utf8 "<function " ++ f.name ++ utf8 ">"

structure Frame where
  vars : Bindings Value
  funcs : Bindings Function

def Frame.empty : Frame :=
  ⟨.empty, .empty⟩

structure Scope where
  frame : Frame
  /-- The enclosing frames, nearest first. -/
  outer : List Frame

namespace Scope

def root (frame : Frame) : Scope :=
  ⟨frame, []⟩

def frames (s : Scope) : List Frame :=
  s.frame :: s.outer

def value? (s : Scope) (name : Bytes) : Option Value :=
  s.frames.findSome? (·.vars.get? name)

def function? (s : Scope) (name : Bytes) : Option Function :=
  s.frames.findSome? (·.funcs.get? name)

def assign (s : Scope) (name : Bytes) (value : Value) : Scope :=
  { s with frame := { s.frame with vars := s.frame.vars.insert name value } }

def define (s : Scope) (name : Bytes) (f : Function) : Scope :=
  { s with frame := { s.frame with funcs := s.frame.funcs.insert name f } }

/-- Puts a new innermost frame in front of the chain. -/
def enter (s : Scope) (frame : Frame) : Scope :=
  ⟨frame, s.frames⟩

/-- Drops the innermost frame; the outermost one stays. -/
def leave (s : Scope) : Scope :=
  match s.outer with
  | [] => s
  | frame :: outer => ⟨frame, outer⟩

end Scope

end LineLisp
