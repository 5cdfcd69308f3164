import Rustqlite.Pager.View

/-!
# What auto-vacuum keeps

The programs that take a free page for one that moves are made of the steps of
the write path, so they keep what those steps keep.
-/

namespace Rustqlite.Pager

open Foundation Format Btree FileM

namespace Primitives

variable {I : PagerState × World DbFile → Prop} (h : Primitives I)

include h

theorem relinkTrunk (prevTrunk : Option UInt32) (pgno : UInt32) :
    Keeps I (relinkTrunk prevTrunk pgno) := by
  cases prevTrunk with
  | none =>
    exact h.withHeaderMut (fun header => { header with firstFreelistTrunk := pgno }) fun _ => rfl
  | some pt => exact (h.readPageForWrite pt).bind fun _ => h.writePage _ _

theorem promoteLeaf (trunk : Bytes) (nextTrunk k : UInt32) :
    Keeps I (promoteLeaf trunk nextTrunk k) := by
  refine Keeps.getState.bind fun s => (h.readPageForWrite _).bind fun newTrunk => ?_
  refine Keeps.ite ((Keeps.throw _).bind fun _ => ?_) ?_
  · exact (h.writePage _ _).bind fun _ => Keeps.pure _
  · exact (h.writePage _ _).bind fun _ => Keeps.pure _

theorem takeTrunkPage (prevTrunk : Option UInt32) (trunk : Bytes) :
    Keeps I (takeTrunkPage prevTrunk trunk) := by
  refine Keeps.ite ?_ ?_
  · exact (h.relinkTrunk _ _).bind fun _ => h.withHeaderMut _ fun _ => by rfl
  · refine (h.promoteLeaf _ _ _).bind fun _ => ?_
    exact (h.relinkTrunk _ _).bind fun _ => h.withHeaderMut _ fun _ => by rfl

theorem removeLeaf (trunkPgno k : UInt32) (i : Nat) : Keeps I (removeLeaf trunkPgno k i) := by
  refine (h.readPageForWrite _).bind fun buf => ?_
  refine Keeps.ite ((Keeps.throw _).bind fun _ => ?_) ?_
  · exact (h.writePage _ _).bind fun _ => h.withHeaderMut _ fun _ => by rfl
  · exact (h.writePage _ _).bind fun _ => h.withHeaderMut _ fun _ => by rfl

theorem walkTrunks (nFin fuel : Nat) (trunkPgno : UInt32) (prevTrunk : Option UInt32) :
    Keeps I (walkTrunks nFin fuel trunkPgno prevTrunk) := by
  induction fuel generalizing trunkPgno prevTrunk with
  | zero => exact Keeps.throw _
  | succ fuel ih =>
      refine Keeps.ite (Keeps.pure _) ((h.getPage _).bind fun trunk => Keeps.ite ?_ ?_)
      · exact (h.takeTrunkPage _ _).bind fun _ => Keeps.pure _
      · refine (keeps_liftResult _).bind fun r => ?_
        cases r with
        | none => exact ih _ _
        | some leaf => exact (h.removeLeaf _ _ _).bind fun _ => Keeps.pure _

theorem findFreePageAtOrBelow (nFin : Nat) : Keeps I (findFreePageAtOrBelow nFin) := by
  exact Keeps.getState.bind fun s => Keeps.ite (Keeps.pure _) (h.walkTrunks _ _ _ _)

end Primitives

end Rustqlite.Pager
