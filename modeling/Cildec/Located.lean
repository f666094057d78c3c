import Cildec.Body.Located
import Cildec.Metadata.Located
import Cildec.Signature.Located

/-!
# Error offsets and the input (`src/error.rs`)

The offset of an error counts from the start of the file, so that it lies between the base of
the buffer that was parsed and its end. Method bodies and signatures keep this rule for every
input. A metadata region breaks it where the start of a stream is reported that lies behind the
region (`error_offsets_iff`).
-/

namespace Cildec

/-- The failures of the six signature parsers point into the blob. -/
structure SignaturesPointInto (blob : List UInt8) (options : SignatureOptions) : Prop where
  method : PointsInto 0 blob.length (MethodSig.parseWith blob options)
  field : PointsInto 0 blob.length (FieldSig.parseWith blob options)
  localVar : PointsInto 0 blob.length (LocalVarSig.parseWith blob options)
  property : PointsInto 0 blob.length (PropertySig.parseWith blob options)
  methodSpec : PointsInto 0 blob.length (MethodSpecSig.parseWith blob options)
  typeSpec : PointsInto 0 blob.length (TypeSpecSig.parseWith blob options)

theorem signatures_pointInto (blob : List UInt8) (options : SignatureOptions) :
    SignaturesPointInto blob options where
  method := pointsInto_of_located fun _ h => (MethodSig.safe options.limit).finish h
  field := pointsInto_of_located fun _ h => (FieldSig.safe options.limit blob).finish h
  localVar := pointsInto_of_located fun _ h => (LocalVarSig.safe options.limit blob).finish h
  property := pointsInto_of_located fun _ h => (PropertySig.safe options.limit blob).finish h
  methodSpec := pointsInto_of_located fun _ h => (MethodSpecSig.safe options.limit blob).finish h
  typeSpec := pointsInto_of_located fun _ h => (TypeSpecSig.safe options.limit blob).finish h

/-- The errors of a region point into it exactly when no stream that is reported starts behind
it; those of bodies and signatures always do. -/
theorem error_offsets_iff (bytes : List UInt8) (base : Nat) (codeRva : UInt32)
    (strictness : Strictness) (options : SignatureOptions)
    (hmax : base + bytes.length ≤ usizeMax) :
    (PointsInto base (base + bytes.length) (Metadata.parseAt bytes base strictness) ↔
      (Metadata.RootReadable strictness bytes → Metadata.ReportsInside strictness bytes base)) ∧
    PointsInto 0 bytes.length (MethodBody.parseWith bytes codeRva strictness) ∧
    SignaturesPointInto bytes options := by
  refine ⟨Metadata.parseAt_pointsInto_iff hmax, ?_, signatures_pointInto bytes options⟩
  have hlen : bytes.length ≤ usizeMax := (Nat.le_add_left _ _).trans hmax
  exact pointsInto_of_located fun _ h => MethodBody.parseWith_located hlen h

/-- Behind the headers of an image, a directory that ends in its first entry is reported inside
the region. -/
theorem error_offsets_inside_oneEntry :
    PointsInto 512 (512 + Metadata.oneEntry.length)
      (Metadata.parseAt Metadata.oneEntry 512 .strict) ∧
    PointsInto 0 Metadata.oneEntry.length (MethodBody.parseWith Metadata.oneEntry 0 .strict) ∧
    SignaturesPointInto Metadata.oneEntry .default := by
  obtain ⟨hregion, hbody, hsignatures⟩ :=
    error_offsets_iff Metadata.oneEntry 512 0 .strict .default (by decide)
  refine ⟨hregion.mpr fun _ => ⟨?_, ?_⟩, hbody, hsignatures⟩
  · intro _ entry hentry
    cases hentry
  · rintro ⟨extent, hname, _⟩
    cases hname

/-- A region of one stream, the table stream, that has no bytes and starts far behind it. -/
def farTables : List UInt8 :=
  [0x42, 0x53, 0x4A, 0x42, 1, 0, 1, 0, 0, 0, 0, 0, 4, 0, 0, 0, 0x76, 0x34, 0, 0, 0, 0, 1, 0,
    0xFF, 0xFF, 0xFF, 0xFF, 0, 0, 0, 0, 0x23, 0x7E, 0, 0]

/-- The table stream is refused at its declared start, in both modes, and in strict mode a
stream that is cut is reported there. Both regions are of 40 bytes at most. -/
theorem error_offset_behind :
    0 + farTables.length ≤ usizeMax ∧
      ¬ PointsInto 0 (0 + farTables.length) (Metadata.parseAt farTables 0 .permissive) ∧
      ¬ PointsInto 0 (0 + farTables.length) (Metadata.parseAt farTables 0 .strict) ∧
      ¬ PointsInto 0 (0 + Metadata.farRegion.length)
        (Metadata.parseAt Metadata.farRegion 0 .strict) := by
  have hbehind : ∀ bytes strictness, bytes.length ≤ 40 →
      errorOffset (Metadata.parseAt bytes 0 strictness) = some 0xFFFFFFFF →
        ¬ PointsInto 0 (0 + bytes.length) (Metadata.parseAt bytes 0 strictness) := by
    intro bytes strictness hlen hoffset hinto
    have hhi := (hinto _ hoffset).2
    omega
  refine ⟨by decide, ?_, ?_, ?_⟩
  · exact hbehind farTables .permissive (by decide) (by decide +kernel)
  · exact hbehind farTables .strict (by decide) (by decide +kernel)
  · exact hbehind Metadata.farRegion .strict (by decide) (by decide +kernel)

end Cildec
