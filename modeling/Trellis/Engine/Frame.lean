import Trellis.Engine.Section

/-!
# Render frames

A frame is a place that output goes to, together with the section that opened it. Frames are kept innermost
first; the outermost belongs to the node that the program is mounted on.
-/
namespace Trellis

inductive Frame.Kind where
  /-- What it holds moves into the enclosing node when it ends. -/
  | root
  /-- It has a node of its own, which is appended to the enclosing node when it ends. -/
  | container
  /-- It shares the enclosing node. -/
  | conditional
deriving DecidableEq, Repr

structure Frame (Node : Type) where
  site : Nat
  owner : Section
  target : Node
  kind : Frame.Kind
deriving DecidableEq, Repr

abbrev Frames (Node : Type) := List (Frame Node)

/-- Keeps the outermost `depth` frames. -/
def Frames.truncate {Node : Type} (depth : Nat) (frames : Frames Node) : Frames Node :=
  frames.drop (frames.length - depth)

end Trellis
