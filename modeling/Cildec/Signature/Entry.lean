import Cildec.Signature.Accepts

/-!
# The six signature grammars

Each entry point starts at the front of a blob, at depth 0. `parsed_iff` turns what a
grammar says of a blob into what `parse_with` returns.
-/

namespace Cildec

open Wire Cildec.Parser

/-! ## The entry points -/

/-- A byte whose low four bits are the expected calling convention. -/
def Parser.conventionGrammar (expected : UInt8) : Grammar UInt8 :=
  byteGrammar.bind fun byte =>
    (Grammar.pure byte).guard (byte &&& CallingConvention.mask = expected)

theorem Parser.accepts_expectConvention (limit depth : Nat) (seen : Bool) (expected : UInt8) :
    Accepts (At limit depth seen) (expectConvention expected) (conventionGrammar expected) :=
  accepts_position_bind fun _ => Accepts.bind (stable_at limit depth seen) accepts_u8
    fun _ => Accepts.check fun _ => Accepts.pure _

/-- The types an entry point reads. -/
def SigType.grammar (limit : Nat) : Grammar SigType := typeGrammar limit limit false

theorem SigType.accepts (limit : Nat) :
    Accepts (At limit 0 false) (type_ limit) (SigType.grammar limit) :=
  (accepts_type_methodSig limit limit 0 rfl false).1

theorem SigType.grammar_nonempty (limit : Nat) : (SigType.grammar limit).Nonempty :=
  typeGrammar_nonempty limit limit false

def Param.grammar (limit : Nat) : Grammar Param := paramGrammar limit (SigType.grammar limit)

theorem Param.accepts (limit : Nat) :
    Accepts (At limit 0 false) (Parser.param (Parser.type_ limit)) (Param.grammar limit) :=
  accepts_param (SigType.accepts limit) (SigType.grammar_nonempty limit)

theorem Param.grammar_nonempty (limit : Nat) : (Param.grammar limit).Nonempty :=
  paramGrammar_nonempty (SigType.grammar_nonempty limit)

def MethodSig.grammar (limit : Nat) : Grammar MethodSig := methodGrammar limit limit false

theorem MethodSig.accepts (limit : Nat) :
    Accepts (At limit 0 false) (MethodSig.parser limit) (MethodSig.grammar limit) :=
  (accepts_type_methodSig limit limit 0 rfl false).2

def FieldSig.grammar (limit : Nat) (blob : List UInt8) : Grammar FieldSig :=
  (conventionGrammar CallingConvention.field).bind fun _ => modsThen limit fun mods =>
    (SigType.grammar limit).map fun type_ => ⟨blob, mods, type_⟩

theorem FieldSig.accepts (limit : Nat) (blob : List UInt8) :
    Accepts (At limit 0 false) (FieldSig.parser limit blob) (FieldSig.grammar limit blob) := by
  have hP := stable_at limit 0 false
  refine Accepts.bind hP (accepts_expectConvention limit 0 false _) fun _ => ?_
  exact accepts_modsThen (fun _ => (SigType.accepts limit).map _)
    fun _ => (SigType.grammar_nonempty limit).map _

def LocalVarSig.grammar (limit : Nat) (blob : List UInt8) : Grammar LocalVarSig :=
  (conventionGrammar CallingConvention.localSig).bind fun _ =>
    (countedGrammar (localGrammar limit (SigType.grammar limit))).map fun locals =>
      ⟨blob, locals⟩

theorem LocalVarSig.accepts (limit : Nat) (blob : List UInt8) :
    Accepts (At limit 0 false) (LocalVarSig.parser limit blob)
      (LocalVarSig.grammar limit blob) := by
  have hP := stable_at limit 0 false
  have hpos := SigType.grammar_nonempty limit
  refine Accepts.bind hP (accepts_expectConvention limit 0 false _) fun _ => ?_
  exact (accepts_counted hP (accepts_localVar (SigType.accepts limit) hpos)
    (localGrammar_nonempty hpos)).map _

def PropertySig.grammar (limit : Nat) (blob : List UInt8) : Grammar PropertySig :=
  (conventionGrammar CallingConvention.property).bind fun byte =>
    cu32Grammar.bind fun count => (Param.grammar limit).bind fun returnType =>
      ((Param.grammar limit).repeated count).map fun params =>
        ⟨blob, byte &&& CallingConvention.hasThis ≠ 0, returnType, params⟩

theorem PropertySig.accepts (limit : Nat) (blob : List UInt8) :
    Accepts (At limit 0 false) (PropertySig.parser limit blob)
      (PropertySig.grammar limit blob) := by
  have hP := stable_at limit 0 false
  have hheader : Accepts (At limit 0 false) PropertySig.header
      (conventionGrammar CallingConvention.property) :=
    Accepts.bind hP accepts_u8 fun _ => Accepts.check fun _ => Accepts.pure _
  refine Accepts.bind hP hheader fun byte => ?_
  refine accepts_boundedCount_bind hP (fun count => ?_) ?_
  · refine Accepts.bind hP (Param.accepts limit) fun returnType => ?_
    exact (Accepts.repeatM hP (Param.accepts limit) count).map _
  · rintro count sig bs ms ⟨_, cs, ds, _, _, _, ⟨params, _, hparams⟩, rfl, _⟩
    have hlen := (Grammar.repeated_length (Param.grammar_nonempty limit) hparams).2
    rw [List.length_append]
    omega

def MethodSpecSig.grammar (limit : Nat) (blob : List UInt8) : Grammar MethodSpecSig :=
  (conventionGrammar CallingConvention.genericInst).bind fun _ =>
    (countedGrammar (SigType.grammar limit)).map fun args => ⟨blob, args⟩

theorem MethodSpecSig.accepts (limit : Nat) (blob : List UInt8) :
    Accepts (At limit 0 false) (MethodSpecSig.parser limit blob)
      (MethodSpecSig.grammar limit blob) := by
  have hP := stable_at limit 0 false
  refine Accepts.bind hP (accepts_expectConvention limit 0 false _) fun _ => ?_
  exact (accepts_counted hP (SigType.accepts limit) (SigType.grammar_nonempty limit)).map _

def TypeSpecSig.grammar (limit : Nat) (blob : List UInt8) : Grammar TypeSpecSig :=
  (SigType.grammar limit).map fun type_ => ⟨blob, type_⟩

theorem TypeSpecSig.accepts (limit : Nat) (blob : List UInt8) :
    Accepts (At limit 0 false) (TypeSpecSig.parser limit blob)
      (TypeSpecSig.grammar limit blob) :=
  (SigType.accepts limit).map _

/-! ## From a blob to a signature -/

theorem Parser.new_at (blob : List UInt8) (options : SignatureOptions) :
    At options.limit 0 false (Parser.new blob options) := ⟨rfl, rfl, rfl⟩

theorem Parser.rest_new (blob : List UInt8) (options : SignatureOptions) :
    (Parser.new blob options).rest = blob := List.drop_zero

theorem Parser.finish_ok_iff {run : EStateM.Result Error Parser α} {a : α} :
    finish run = .ok a ↔ ∃ p, run = .ok a p := by
  cases run with
  | ok b p =>
      constructor
      · intro h
        cases h
        exact ⟨p, rfl⟩
      · rintro ⟨q, h⟩
        cases h
        rfl
  | error e p =>
      constructor
      · intro h
        cases h
      · rintro ⟨q, h⟩
        cases h

/-- A parser reads a spelling at the front of a blob exactly when its marks have room. -/
theorem Parser.parsed_iff {options : SignatureOptions} {x : Parse α} {R : Grammar α}
    (h : Accepts (At options.limit 0 false) x R) {a : α} {bs tl : List UInt8} {ms : List Mark}
    (hR : R a bs ms) :
    finish (x.run (Parser.new (bs ++ tl) options)) = .ok a ↔ Fits tl.length ms := by
  have hnew := Parser.new_at (bs ++ tl) options
  have hrest : Cursor.rest (Parser.new (bs ++ tl) options) = bs ++ tl := Parser.rest_new _ _
  rw [Parser.finish_ok_iff]
  constructor
  · rintro ⟨p, hrun⟩
    by_contra hfits
    exact h.refuses _ a bs ms tl hnew hR hrest hfits a p hrun
  · intro hfits
    exact ⟨_, h.complete _ a bs ms tl hnew hR hrest hfits⟩

/-- A spelling that needs nothing after it is read whatever follows. -/
theorem Parser.parsed_of_spells {options : SignatureOptions} {x : Parse α} {R : Grammar α}
    (h : Accepts (At options.limit 0 false) x R) {a : α} {bs : List UInt8} (hR : R.Spells a bs)
    (tl : List UInt8) : finish (x.run (Parser.new (bs ++ tl) options)) = .ok a := by
  obtain ⟨ms, hR, hfits⟩ := hR
  exact (Parser.parsed_iff h hR).mpr (hfits.mono (Nat.zero_le _))

/-- What was read is spelled by the bytes up to the cursor. -/
theorem Parser.spelled_of_run {options : SignatureOptions} {x : Parse α} {R : Grammar α}
    (h : Accepts (At options.limit 0 false) x R) {a : α} {blob : List UInt8} {p : Parser}
    (hrun : x.run (Parser.new blob options) = .ok a p) : ∃ ms, R a (blob.take p.pos) ms := by
  obtain ⟨bs, ms, hrest, rfl, hR, _⟩ := h.sound _ a p (Parser.new_at blob options) hrun
  have hpos : (Cursor.advance bs.length (Parser.new blob options)).pos = bs.length :=
    Nat.zero_add _
  have htake : blob.take bs.length = bs := by
    have hblob : Cursor.rest (Parser.new blob options) = blob := Parser.rest_new _ _
    rw [hblob] at hrest
    conv_lhs => rw [hrest]
    exact List.take_left
  exact ⟨ms, by rwa [hpos, htake]⟩

end Cildec
