import MonkeyLang.Value.Basic

namespace MonkeyLang

structure Frame where
  bindings : List (String × Value)
  parent : Option FrameId

def Frame.debug (frame : Frame) : String :=
  "<Environment bindings=[" ++ ", ".intercalate (frame.bindings.map (·.1)) ++ "]>"

/-- All frames made so far; a frame's index is its identity. -/
structure Store where
  frames : Array Frame

namespace Store

def empty : Store := ⟨#[]⟩

def child (store : Store) (parent : Option FrameId) : FrameId × Store :=
  (store.frames.size, ⟨store.frames.push ⟨[], parent⟩⟩)

def bindings (store : Store) (frame : FrameId) : List (String × Value) :=
  match store.frames[frame]? with
  | some frame => frame.bindings
  | none => []

/-- The first frame on the chain from `frame` outward that binds the name. -/
def owner? (store : Store) (frame : FrameId) (name : String) : Option FrameId :=
  match store.frames[frame]? with
  | none => none
  | some ⟨bindings, parent⟩ =>
    if Table.contains bindings name then some frame
    else
      match parent with
      | none => none
      | some parent => if parent < frame then owner? store parent name else none
termination_by frame

def resolve (store : Store) (frame : FrameId) (name : String) : Option Value :=
  (store.owner? frame name).bind fun owner => (store.bindings owner).lookup name

def bind (store : Store) (frame : FrameId) (name : String) (value : Value) : Store :=
  ⟨store.frames.modify frame fun f => { f with bindings := Table.insert name value f.bindings }⟩

def bindAll (store : Store) (frame : FrameId) (bindings : List (String × Value)) : Store :=
  bindings.foldl (fun store (name, value) => store.bind frame name value) store

end Store

end MonkeyLang
