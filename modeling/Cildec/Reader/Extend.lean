import Cildec.Lib.Follow
import Cildec.Reader

/-!
# Bytes behind the ones that are read (`src/reader.rs`)

A reader that has succeeded has not seen the end of its bytes. Every operation does the same
when more bytes follow.
-/

namespace Cildec

open Wire

namespace Reader

/-- The reader over the same bytes with `tl` behind them. -/
def extend (tl : List UInt8) (r : Reader) : Reader :=
  { r with
    data := r.data ++ tl
    pos_le := by
      rw [List.length_append]
      exact Nat.le_add_right_of_le r.pos_le }

variable (tl : List UInt8)

theorem new_extend (data : List UInt8) (base : Nat) (context : String) :
    (new data base context).extend tl = new (data ++ tl) base context := rfl

theorem rest_extend (r : Reader) : (r.extend tl).rest = r.rest ++ tl :=
  List.drop_append_of_le_length r.pos_le

theorem moveTo_extend {n : Nat} {r : Reader} (h : n ≤ r.data.length) :
    (r.extend tl).moveTo n = (r.moveTo n).extend tl := by
  have hlen : (r.data ++ tl).length = r.data.length + tl.length := List.length_append
  refine ext_pos rfl ?_ rfl rfl
  show min n (r.data ++ tl).length = min n r.data.length
  omega

theorem follows_seek (n : Nat) : Follows.Itself (extend tl) (seek n) := by
  intro r _ r' hrun _
  obtain ⟨hle, rfl⟩ := seek_ok_iff.mp hrun
  refine seek_ok_iff.mpr ⟨?_, (moveTo_extend tl hle).symm⟩
  show n ≤ (r.data ++ tl).length
  rw [List.length_append]
  omega

theorem follows_take (n : Nat) : Follows.Itself (extend tl) (take n) := by
  intro r bs r' hrun _
  obtain ⟨hle, rfl, rfl⟩ := take_ok_iff.mp hrun
  have hpos := r.pos_le
  have hrest : n ≤ r.rest.length := r.rest_length ▸ hle
  refine take_ok_iff.mpr ⟨?_, ?_, ?_⟩
  · rw [← rest_length, rest_extend, List.length_append]
    omega
  · rw [rest_extend, List.take_append_of_le_length hrest]
  · have hle' : n ≤ r.data.length - r.pos := hle
    exact (moveTo_extend tl (by omega)).symm

theorem follows_takeWith {α : Type} (n : Nat) (g : List UInt8 → α) :
    Follows.Itself (extend tl) (do let bs ← take n; return g bs) :=
  (follows_take tl n).seq fun _ => Follows.pure _ _

theorem follows_u16 : Follows.Itself (extend tl) u16 := follows_takeWith tl 2 _

theorem follows_u32 : Follows.Itself (extend tl) u32 := follows_takeWith tl 4 _

theorem follows_u64 : Follows.Itself (extend tl) u64 := follows_takeWith tl 8 _

end Reader

end Cildec
