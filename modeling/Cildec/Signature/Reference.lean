import Cildec.Signature.Grammar
import Cildec.Tables.Coded

/-!
# References that keep their RID

A coded column has up to 31 RID bits and a type token of a signature 27, while a `Token`
holds 24. `reference_kept_iff`: a reference is kept exactly when its RID fits.
-/

namespace Cildec

open Wire Cildec.Parser

namespace CodedIndex

/-- References whose RIDs agree in the bits a token holds are one token. -/
theorem decode_mod (kind : CodedIndex) (v offset : Nat) :
    kind.decode (v / 2 ^ kind.tagBits % 2 ^ 24 * 2 ^ kind.tagBits + v % 2 ^ kind.tagBits) offset =
      kind.decode v offset := by
  have hpos := Nat.two_pow_pos kind.tagBits
  have htag : v % 2 ^ kind.tagBits < 2 ^ kind.tagBits := Nat.mod_lt _ hpos
  have hmask : ∀ x : Nat, x &&& kind.tagMask = x % 2 ^ kind.tagBits := by
    intro x
    rw [tagMask, Nat.one_shiftLeft, Nat.and_two_pow_sub_one_eq_mod]
  have hnew : ∀ table, Token.new table (v / 2 ^ kind.tagBits % 2 ^ 24) =
      Token.new table (v / 2 ^ kind.tagBits) := by
    intro table
    simp only [Token.new, Token.ridMask]
    rw [show (0x00FFFFFF : Nat) = 2 ^ 24 - 1 from rfl, Nat.and_two_pow_sub_one_eq_mod,
      Nat.and_two_pow_sub_one_eq_mod, Nat.mod_mod]
  simp only [decode, hmask, Nat.shiftRight_eq_div_pow]
  rw [Nat.mul_comm, Nat.mul_add_mod, Nat.mod_mod, Nat.mul_add_div hpos, Nat.div_eq_of_lt htag,
    Nat.add_zero]
  simp only [hnew]

/-- A reference is the only one of its token with a RID in range exactly when its own RID is
in range. -/
theorem decode_unique_iff {kind : CodedIndex} {v offset : Nat} {token : Token}
    (h : kind.decode v offset = .ok token) :
    (∀ w, w / 2 ^ kind.tagBits < 2 ^ 24 → kind.decode w offset = .ok token → w = v) ↔
      v / 2 ^ kind.tagBits < 2 ^ 24 := by
  have hpos := Nat.two_pow_pos kind.tagBits
  constructor
  · intro hunique
    have htag : v % 2 ^ kind.tagBits < 2 ^ kind.tagBits := Nat.mod_lt _ hpos
    have hrid : (v / 2 ^ kind.tagBits % 2 ^ 24 * 2 ^ kind.tagBits + v % 2 ^ kind.tagBits) /
        2 ^ kind.tagBits = v / 2 ^ kind.tagBits % 2 ^ 24 := by
      rw [Nat.mul_comm, Nat.mul_add_div hpos, Nat.div_eq_of_lt htag, Nat.add_zero]
    have hlt : v / 2 ^ kind.tagBits % 2 ^ 24 < 2 ^ 24 := Nat.mod_lt _ (by decide)
    have hsame := hunique _ (by rw [hrid]; exact hlt) ((kind.decode_mod v offset).trans h)
    rw [hsame] at hrid
    rw [hrid]
    exact hlt
  · intro hv w hw hdecode
    have hencode := (encode_decode_iff h).mpr hv
    have hencode' := (encode_decode_iff hdecode).mpr hw
    rw [hencode] at hencode'
    exact (Option.some.inj hencode').symm

end CodedIndex

/-! ## Type tokens -/

theorem typeTokenOf?_eq_some_iff {v : Nat} {token : Token} :
    typeTokenOf? v = some token ↔
      ∃ table, typeTokenTable? (v &&& 3) = some table ∧ token = Token.new table (v >>> 2) := by
  rw [typeTokenOf?, Option.map_eq_some_iff]
  constructor
  · rintro ⟨table, htable, rfl⟩
    exact ⟨table, htable, rfl⟩
  · rintro ⟨table, htable, rfl⟩
    exact ⟨table, htable, rfl⟩

/-- The table of a type token is always that of the tag. -/
theorem table_of_typeToken {v : Nat} {token : Token} (h : typeTokenOf? v = some token) :
    token.table = typeTokenTable? (v &&& 3) := by
  obtain ⟨table, htable, rfl⟩ := typeTokenOf?_eq_some_iff.mp h
  rw [htable, Token.table_new]

theorem rid_of_typeToken_iff {v : Nat} {token : Token} (h : typeTokenOf? v = some token) :
    token.rid = v >>> 2 ↔ v >>> 2 < 2 ^ 24 := by
  obtain ⟨table, _, rfl⟩ := typeTokenOf?_eq_some_iff.mp h
  constructor
  · intro hrid
    rw [← hrid]
    exact Token.rid_lt _
  · intro hlt
    exact Token.rid_new table hlt

/-- `type_token` reads a compressed value and makes its token. -/
theorem typeToken_ok_iff {p p' : Parser} {token : Token} :
    typeToken.run p = .ok token p' ↔
      ∃ v, cu32.run p = .ok v p' ∧ typeTokenOf? v = some token := by
  have hstep : typeToken.run p = (cu32 >>= fun value =>
      orFail (typeTokenOf? value) (errAt .malformed p.pos)).run p := rfl
  rw [hstep, run_bind_ok_iff]
  constructor
  · rintro ⟨v, q, hv, htoken⟩
    obtain ⟨hsome, rfl⟩ := orFail_ok_iff.mp htoken
    exact ⟨v, hv, hsome⟩
  · rintro ⟨v, hv, htoken⟩
    exact ⟨v, p', hv, orFail_ok_iff.mpr ⟨htoken, rfl⟩⟩

/-- The tag of a type token is the one value of its table. -/
theorem tag_of_table {t u : Nat} (ht : t < 4) (hu : u < 4)
    (h : typeTokenTable? t = typeTokenTable? u) (hsome : (typeTokenTable? t).isSome) : t = u := by
  have hall : ∀ t < 4, ∀ u < 4, typeTokenTable? t = typeTokenTable? u →
      (typeTokenTable? t).isSome → t = u := by
    decide
  exact hall t ht u hu h hsome

theorem typeToken_unique_iff {v : Nat} {token : Token} (h : typeTokenOf? v = some token) :
    (∀ w, w >>> 2 < 2 ^ 24 → typeTokenOf? w = some token → w = v) ↔ v >>> 2 < 2 ^ 24 := by
  have hshift : ∀ x : Nat, x >>> 2 = x / 4 := fun x => Nat.shiftRight_eq_div_pow x 2
  have hmask : ∀ x : Nat, x &&& 3 = x % 4 := fun x => Nat.and_two_pow_sub_one_eq_mod x 2
  constructor
  · intro hunique
    have hlt : v / 4 % 2 ^ 24 < 2 ^ 24 := Nat.mod_lt _ (by decide)
    have hrid : (v / 4 % 2 ^ 24 * 4 + v % 4) / 4 = v / 4 % 2 ^ 24 := by omega
    -- the value without the bits that the token loses is read as the same token
    have hsame := hunique (v / 4 % 2 ^ 24 * 4 + v % 4) (by rw [hshift, hrid]; exact hlt) (by
      obtain ⟨table, htable, rfl⟩ := typeTokenOf?_eq_some_iff.mp h
      refine typeTokenOf?_eq_some_iff.mpr ⟨table, ?_, ?_⟩
      · rw [hmask] at htable ⊢
        rwa [show (v / 4 % 2 ^ 24 * 4 + v % 4) % 4 = v % 4 by omega]
      · rw [hshift, hshift, hrid]
        simp only [Token.new, Token.ridMask]
        rw [show (0x00FFFFFF : Nat) = 2 ^ 24 - 1 from rfl, Nat.and_two_pow_sub_one_eq_mod,
          Nat.and_two_pow_sub_one_eq_mod, Nat.mod_mod])
    rw [hshift]
    omega
  · intro hv w hw hw'
    have hrid := ((rid_of_typeToken_iff h).mpr hv).symm.trans ((rid_of_typeToken_iff hw').mpr hw)
    have htable := (table_of_typeToken h).symm.trans (table_of_typeToken hw')
    have hsome : (typeTokenTable? (v &&& 3)).isSome := by
      obtain ⟨table, htable, _⟩ := typeTokenOf?_eq_some_iff.mp h
      rw [htable]
      rfl
    rw [hmask] at htable hsome
    rw [hmask] at htable
    have htag := tag_of_table (Nat.mod_lt _ (by decide)) (Nat.mod_lt _ (by decide)) htable hsome
    rw [hshift, hshift] at hrid
    omega

/-- Decoding keeps a reference, of a column or of a signature, exactly when its RID is below
`2 ^ 24`, and exactly then no other reference in range decodes to its token. -/
theorem reference_kept_iff (v : Nat) :
    (∀ (kind : CodedIndex) (offset : Nat) (token : Token), kind.decode v offset = .ok token →
      (kind.encode token = some v ↔ v / 2 ^ kind.tagBits < 2 ^ 24) ∧
      ((∀ w, w / 2 ^ kind.tagBits < 2 ^ 24 → kind.decode w offset = .ok token → w = v) ↔
        v / 2 ^ kind.tagBits < 2 ^ 24)) ∧
    (∀ (p p' : Parser) (token : Token), cu32.run p = .ok v p' →
      typeToken.run p = .ok token p' →
      (token.rid = v >>> 2 ∧ token.table = typeTokenTable? (v &&& 3) ↔ v >>> 2 < 2 ^ 24) ∧
      ((∀ w, w >>> 2 < 2 ^ 24 → typeTokenOf? w = some token → w = v) ↔ v >>> 2 < 2 ^ 24)) := by
  refine ⟨?_, ?_⟩
  · intro kind offset token h
    exact ⟨CodedIndex.encode_decode_iff h, CodedIndex.decode_unique_iff h⟩
  · intro p p' token hv htoken
    obtain ⟨v', hv', h⟩ := typeToken_ok_iff.mp htoken
    rw [hv] at hv'
    cases hv'
    refine ⟨?_, typeToken_unique_iff h⟩
    rw [rid_of_typeToken_iff h, and_iff_left (table_of_typeToken h)]

/-- A RID of `2 ^ 24` is lost, in a coded column and in a signature. -/
theorem reference_truncated :
    (¬ ∀ (kind : CodedIndex) (v offset : Nat) (token : Token), v < 2 ^ 32 →
      kind.decode v offset = .ok token → kind.encode token = some v) ∧
    (¬ ∀ (p p' : Parser) (v : Nat) (token : Token), cu32.run p = .ok v p' →
      typeToken.run p = .ok token p' →
      token.rid = v >>> 2 ∧ token.table = typeTokenTable? (v &&& 3)) ∧
    (¬ ∀ (kind : CodedIndex) (v w offset : Nat) (token : Token), v < 2 ^ 32 → w < 2 ^ 32 →
      kind.decode v offset = .ok token → kind.decode w offset = .ok token → v = w) := by
  have hdecode : ∀ v, v = 0 ∨ v = 2 ^ 26 →
      CodedIndex.typeDefOrRef.decode v 0 = .ok (Token.new .typeDef 0) := by
    rintro v (rfl | rfl) <;> decide
  refine ⟨?_, ?_, ?_⟩
  · intro h
    have hencode := h .typeDefOrRef (2 ^ 26) 0 _ (by decide) (hdecode _ (.inr rfl))
    exact absurd hencode (by decide)
  · intro h
    have hrid := (h (Parser.new [0xC4, 0, 0, 0] .default)
      ((Parser.new [0xC4, 0, 0, 0] .default).advance 4) (2 ^ 26) (Token.new .typeDef (2 ^ 24))
      rfl rfl).1
    exact absurd hrid (by decide)
  · intro h
    have hsame := h .typeDefOrRef 0 (2 ^ 26) 0 _ (by decide) (by decide) (hdecode _ (.inl rfl))
      (hdecode _ (.inr rfl))
    exact absurd hsame (by decide)

/-- The reference `TypeRef 1`, in a column and in a signature. -/
theorem reference_kept_typeRef :
    CodedIndex.typeDefOrRef.encode (Token.new .typeRef 1) = some 5 ∧
    (Token.new .typeRef 1).rid = 5 >>> 2 := by
  have h := reference_kept_iff 5
  refine ⟨(h.1 .typeDefOrRef 0 (Token.new .typeRef 1) (by decide)).1.mpr (by decide), ?_⟩
  exact ((h.2 (Parser.new [0x05] .default) ((Parser.new [0x05] .default).advance 1)
    (Token.new .typeRef 1) rfl rfl).1.mpr (by decide)).1

end Cildec
