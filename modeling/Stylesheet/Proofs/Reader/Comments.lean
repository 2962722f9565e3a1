import Stylesheet.Proofs.Reader.Table

/-!
# Comments stay

A comment that has been read is in the tree at the end: nothing that the reader does takes a node out of the tree
again, so the comments in the tree become no fewer from one edit to the next (`commentCountOf_tree_run`).
-/

namespace Stylesheet

/-! ## Counting comments -/

namespace Node

mutual

/-- How many comments the node has. -/
def commentCount : Node → Nat
  | block _ _ _ children => commentCountOf children
  | lineAt _ => 0
  | comment _ => 1

/-- How many comments the nodes have. -/
def commentCountOf : List Node → Nat
  | [] => 0
  | n :: ns => n.commentCount + commentCountOf ns

end

@[simp] theorem commentCountOf_append (ns ms : List Node) :
    commentCountOf (ns ++ ms) = commentCountOf ns + commentCountOf ms := by
  induction ns with
  | nil => simp [commentCountOf]
  | cons n ns ih => rw [List.cons_append, commentCountOf, commentCountOf, ih, Nat.add_assoc]

end Node

namespace Frame

/-- How many comments the open block has, without the open block inside it. -/
def commentCount (f : Frame) : Nat := Node.commentCountOf f.before + Node.commentCountOf f.after

/-- How many comments the open blocks have. -/
def commentCountOf (fs : List Frame) : Nat := (fs.map commentCount).sum

theorem commentCountOf_cons (f : Frame) (fs : List Frame) : commentCountOf (f :: fs) = f.commentCount + commentCountOf fs := by
  simp [commentCountOf]

theorem commentCount_push (f : Frame) (n : Node) : (f.push n).commentCount = f.commentCount + n.commentCount := by
  simp only [commentCount, push, Node.commentCountOf_append, Node.commentCountOf]
  omega

theorem commentCountOf_close (f g : Frame) (fs : List Frame) :
    commentCountOf (f.close g :: fs) = commentCountOf (f :: g :: fs) := by
  simp only [commentCountOf_cons, commentCount, close, node, Node.commentCountOf_append, Node.commentCountOf,
    Node.commentCount]
  omega

/-- **A change of the open blocks takes no comment away.** -/
theorem Step.commentCountOf_le {fs fs' : List Frame} (h : Step fs fs') : commentCountOf fs ≤ commentCountOf fs' := by
  cases h with
  | keep => exact le_rfl
  | push f fs n =>
    rw [commentCountOf_cons, commentCountOf_cons, commentCount_push]
    omega
  | declare => exact le_rfl
  | enter => exact Nat.le_add_left _ _
  | reopen fs hbefore hafter =>
    simp only [commentCountOf_cons, commentCount, hbefore, hafter, Node.commentCountOf_append, Node.commentCountOf,
      Node.commentCount]
    omega
  | close f g fs => rw [commentCountOf_close]

/-- Closing all blocks keeps all comments. -/
theorem commentCountOf_closeAll {f : Frame} (hafter : f.after = []) (fs : List Frame) :
    Node.commentCountOf (f.closeAll fs).before = commentCountOf (f :: fs) := by
  induction fs generalizing f with
  | nil => simp [closeAll, commentCountOf, commentCount, hafter, Node.commentCountOf]
  | cons g fs ih =>
    rw [← commentCountOf_close]
    exact ih rfl

end Frame

namespace Reader

variable {o : Options}

/-- **Comments stay** in the tree, whatever comes behind them. -/
theorem commentCountOf_tree_run {r : Reader} {frames : List Frame} (h : r.state.Builds frames) :
    Frame.commentCountOf frames ≤ Node.commentCountOf ((run o r).state.finish o).document.tree := by
  obtain ⟨frames', hbuilds, hle⟩ := (run_finish_edits r).grow (P := fun fs => Frame.commentCountOf frames ≤ Frame.commentCountOf fs)
    (fun _ _ hstep hle => hle.trans hstep.commentCountOf_le) ⟨frames, h, le_rfl⟩
  obtain ⟨f, fs, rfl⟩ := hbuilds.exists_cons
  rw [Document.Builds.tree_eq hbuilds, Frame.commentCountOf_closeAll (Document.Builds.after_eq hbuilds)]
  exact hle

end Reader

end Stylesheet
