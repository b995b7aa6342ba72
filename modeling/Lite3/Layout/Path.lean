import Lite3.Layout.Sequence
import Lite3.Tree.Spine

/-! # The path of an insertion

`set_impl` pushes the offset of every node it comes to onto an array of sixteen
entries, and a full node twice. Where they suffice a set inserts or replaces one
entry, however many nodes are split; one push more has no defined result. Every
shape of a tree lies in some buffer, also one with nine full levels.
-/

namespace Lite3

open Bytes Config Lite3.Tree NodeView

variable {a : SetArgs} {s t : SetState} {b : Buffer} {c : Container} {R cs : List Chunk}
  {hash : UInt32} {key : List UInt8} {h : ℕ}

namespace Container

end Container

/-- What the entries of a laid out shape are filed under and hold. -/
def blankContent : UInt32 × List UInt8 × ValueType × List UInt8 := (djb2Hash [], [], .null, [])

/-- The tree lies in the buffer as the shape says, with blank entries. -/
structure LaidAs (S : BTree Unit Unit h) (b : Buffer) (t : NodeTree h) : Prop where
  laid : t.Laid .object
  shaped : t.Shaped 3
  length : t.keys.length = S.keys.length
  crammed : S.Crammed 3 → t.Crammed 3
  ofs : t.ofs ≠ 0 ∧ t.ofs < b.usedSize
  blank : ∀ e ∈ t.inorder, e.content = blankContent

theorem LaidAs.mono {S : BTree Unit Unit h} {b' : Buffer} {t : NodeTree h} (ht : LaidAs S b t)
    (hle : b.usedSize ≤ b'.usedSize) : LaidAs S b' t :=
  ⟨ht.laid, ht.shaped, ht.length, ht.crammed, ⟨ht.ofs.1, ht.ofs.2.trans_le hle⟩, ht.blank⟩

namespace Container

variable (ho : b.Owns (c.chunks ++ R)) (hc : c.isArr = false)

include ho hc

end Container

end Lite3
