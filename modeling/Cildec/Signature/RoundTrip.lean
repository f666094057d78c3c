import Cildec.Signature.Encode

/-!
# Decoding undoes encoding for signatures

* `SigType.enc_head`: an encoding starts with the element type byte;
* `spells_enc`: the grammar spells a normal value with its encoding, by induction on the
  depth;
* `signatures_round_trip`: the six parsers read a normal value back, whatever follows.
-/

namespace Cildec

open Wire Cildec.Parser

/-! ## Tokens, modifiers and shapes -/

theorem Token.typeOf_bytes {token : Token} (h : token.IsType) :
    typeTokenOf? (token.rid * 4 + token.typeTag) = some token := by
  have hmod : ∀ n tag : Nat, tag < 4 → (n * 4 + tag) &&& 3 = tag := by
    intro n tag htag
    rw [show (3 : Nat) = 2 ^ 2 - 1 from rfl, Nat.and_two_pow_sub_one_eq_mod]
    omega
  have hdiv : ∀ n tag : Nat, tag < 4 → (n * 4 + tag) >>> 2 = n := by
    intro n tag htag
    rw [Nat.shiftRight_eq_div_pow]
    omega
  rcases h with h | h | h <;>
    · simp only [typeTokenOf?, typeTag, h]
      rw [hmod _ _ (by decide), hdiv _ _ (by decide)]
      exact congrArg some (Token.new_rid h)

theorem Token.payload_typeBytes {token : Token} (h : token.IsType) :
    Compressed.Payload (token.rid * 4 + token.typeTag) token.typeBytes := by
  refine Compressed.payload_bytes ?_
  have hrid := token.rid_lt
  have htag : token.typeTag < 4 := by
    rcases h with h | h | h <;> simp only [typeTag, h] <;> decide
  rw [Compressed.maxCompressedU32]
  omega

theorem Token.spells_typeBytes {token : Token} (h : token.IsType) :
    tokenGrammar.Spells token token.typeBytes :=
  Grammar.Spells.filterMap (Grammar.Spells.unmarked (Token.payload_typeBytes h))
    (Token.typeOf_bytes h)

theorem spells_bytes {value : Nat} (h : value ≤ Compressed.maxCompressedU32) :
    cu32Grammar.Spells value (Compressed.bytes value) :=
  Grammar.Spells.unmarked (Compressed.payload_bytes h)

theorem modKind_enc (mod : CustomMod) :
    modKind? (if mod.required then ElementType.cmodReqd else ElementType.cmodOpt) =
      some mod.required := by
  cases mod.required <;> rfl

/-- Modifiers are read off their encoding when no other modifier follows. -/
theorem mods_enc {limit : Nat} {mods : List CustomMod} (h : NormalMods limit mods)
    {o : Option UInt8} (hnext : o.bind modKind? = none) :
    ModsAhead limit mods (mods.flatMap CustomMod.enc) o := by
  refine ⟨?_, h.1, hnext⟩
  have htokens := h.2
  clear h
  induction mods with
  | nil => rfl
  | cons mod mods ih =>
      obtain ⟨hmod, hmods⟩ := List.forall_mem_cons.mp htokens
      exact ⟨_, _, _, modKind_enc mod,
        ⟨_, Token.typeOf_bytes hmod, Token.payload_typeBytes hmod⟩, ih hmods, rfl⟩

theorem spells_counted {R : Grammar α} {enc : α → List UInt8} {as : List α}
    (hlen : as.length ≤ Compressed.maxCompressedU32) (h : ∀ a ∈ as, R.Spells a (enc a)) :
    (countedGrammar R).Spells as (Compressed.bytes as.length ++ as.flatMap enc) :=
  (spells_bytes hlen).bind (Grammar.Spells.repeated_flatMap h)

/-- A counted list takes a byte for its count and one for each item. -/
theorem counted_length {R : Grammar α} (hpos : R.Nonempty) {as : List α} {bs : List UInt8}
    (h : (countedGrammar R).Spells as bs) : as.length < bs.length := by
  obtain ⟨ms, ⟨n, cs, ds, ks, ns, hcs, hds, rfl, _⟩, _⟩ := h
  obtain ⟨rfl, hle⟩ := Grammar.repeated_length hpos hds
  have hcs := cu32Grammar_nonempty _ cs ks hcs
  rw [List.length_append]
  omega

theorem ArrayShape.spells_enc {shape : ArrayShape} (h : shape.Normal) :
    arrayShapeGrammar.Spells shape shape.enc := by
  have hsizes : (countedGrammar cu32Grammar).Spells shape.sizes _ :=
    spells_counted h.sizes_length fun size hsize => spells_bytes (h.sizes_le size hsize)
  have hbounds : (countedGrammar ci32Grammar).Spells shape.loBounds
      (Compressed.bytes shape.loBounds.length ++ shape.loBounds.flatMap Compressed.signedBytes) :=
    spells_counted h.loBounds_length fun bound hbound =>
      Grammar.Spells.unmarked (Compressed.signed_bytes (h.loBounds_range bound hbound).1
        (h.loBounds_range bound hbound).2)
  have hroom := h.rank_room
  have hlen := counted_length cu32Grammar_nonempty hsizes
  have hlen' := counted_length ci32Grammar_nonempty hbounds
  refine (spells_bytes h.rank_le).bind (Grammar.Spells.need ?_ ?_)
  · exact hsizes.bind (hbounds.map (ArrayShape.mk shape.rank shape.sizes))
  · rw [List.length_append]
    omega

/-! ## How an encoding starts -/

theorem SigType.enc_head {ty : SigType} (h : ty.isModified = false) :
    ∃ tl, ty.enc = ty.code :: tl := by
  cases ty with
  | modified => cases h
  | _ => exact ⟨_, rfl⟩

theorem SigType.modKind_code {ty : SigType} (h : ty.isModified = false) :
    modKind? ty.code = none := by
  cases ty with
  | modified => cases h
  | _ => rfl

theorem SigType.code_ne_sentinel {limit : Nat} {seen : Bool} {ty : SigType}
    (h : ty.Normal limit seen) : ty.code ≠ ElementType.sentinel := by
  cases ty with
  | sentinel => exact h.elim
  | _ =>
      simp only [code]
      decide

theorem SigType.code_ne_byRef {ty : SigType} (h : ty.isByRef = false) :
    ty.code ≠ ElementType.byRef := by
  cases ty with
  | byRef => cases h
  | _ =>
      simp only [code]
      decide

theorem SigType.code_ne_pinned {ty : SigType} (h : ty.isPinned = false) :
    ty.code ≠ ElementType.pinned := by
  cases ty with
  | pinned => cases h
  | _ =>
      simp only [code]
      decide

theorem SigType.eq_typedByRef {ty : SigType} (h : ty.code = ElementType.typedByRef) :
    ty = .typedByRef := by
  cases ty with
  | typedByRef => rfl
  | _ =>
      simp only [code] at h
      exact absurd h (by decide)

/-- No modifier starts the encoding of a type that is not `Modified`. -/
theorem SigType.head_enc {ty : SigType} (h : ty.isModified = false) :
    ty.enc.head? = some ty.code ∧ ty.enc.head?.bind modKind? = none := by
  obtain ⟨tl, henc⟩ := SigType.enc_head h
  rw [henc]
  exact ⟨rfl, SigType.modKind_code h⟩

/-! ## Types and methods -/

variable {limit n : Nat} {T : Bool → Grammar SigType} {M : Bool → Grammar MethodSig}

theorem spells_modsThen {S : List CustomMod → Grammar α} {a : α} {mods : List CustomMod}
    {bs : List UInt8} (hmods : NormalMods limit mods) (hS : (S mods).Spells a bs)
    (hhead : bs.head?.bind modKind? = none) :
    (modsThen limit S).Spells a (mods.flatMap CustomMod.enc ++ bs) :=
  Grammar.Spells.ahead (mods_enc hmods hhead) hS

theorem spells_takenThen {code : UInt8} {S : Bool → Grammar α} {a : α} {t : Bool}
    {bs : List UInt8} (hS : (S t).Spells a bs)
    (hhead : t = false → ∃ b, bs.head? = some b ∧ b ≠ code) :
    (takenThen code S).Spells a ((if t then [code] else []) ++ bs) := by
  refine Grammar.Spells.ahead ?_ hS
  cases t with
  | true => exact .inl ⟨rfl, rfl⟩
  | false => exact .inr ⟨rfl, rfl, hhead rfl⟩

theorem spells_u8 (b : UInt8) : byteGrammar.Spells b [b] :=
  Grammar.Spells.unmarked (L := fun b bs => bs = [b]) rfl

theorem spells_byte {S : UInt8 → Grammar α} {a : α} {b : UInt8} {bs : List UInt8}
    (hS : (S b).Spells a bs) : (byteGrammar.bind S).Spells a (b :: bs) :=
  Grammar.Spells.bind (spells_u8 b) hS

theorem SigType.encAll_eq (tys : List SigType) : SigType.encAll tys = tys.flatMap SigType.enc := by
  induction tys with
  | nil => rfl
  | cons ty tys ih => rw [encAll, ih, List.flatMap_cons]

theorem SigType.normalAll_iff {seen : Bool} {tys : List SigType} :
    SigType.NormalAll limit seen tys ↔ ∀ ty ∈ tys, ty.Normal limit seen := by
  induction tys with
  | nil => exact ⟨fun _ _ h => (nomatch h), fun _ => trivial⟩
  | cons ty tys ih => rw [NormalAll, ih, List.forall_mem_cons]

theorem SigType.depthAll_le {tys : List SigType} :
    SigType.depthAll tys ≤ n ↔ ∀ ty ∈ tys, ty.depth ≤ n := by
  induction tys with
  | nil => exact ⟨fun _ _ h => (nomatch h), fun _ => Nat.zero_le _⟩
  | cons ty tys ih => rw [depthAll, Nat.max_le, ih, List.forall_mem_cons]

theorem Param.encAll_eq (params : List Param) :
    Param.encAll params = params.flatMap Param.enc := by
  induction params with
  | nil => rfl
  | cons param params ih => rw [encAll, ih, List.flatMap_cons]

theorem Param.normalAll_iff {seen : Bool} {params : List Param} :
    Param.NormalAll limit seen params ↔ ∀ param ∈ params, param.Normal limit seen := by
  induction params with
  | nil => exact ⟨fun _ _ h => (nomatch h), fun _ => trivial⟩
  | cons param params ih => rw [NormalAll, ih, List.forall_mem_cons]

theorem Param.depthAll_le {params : List Param} :
    Param.depthAll params ≤ n ↔ ∀ param ∈ params, param.depth ≤ n := by
  induction params with
  | nil => exact ⟨fun _ _ h => (nomatch h), fun _ => Nat.zero_le _⟩
  | cons param params ih => rw [depthAll, Nat.max_le, ih, List.forall_mem_cons]

theorem SigType.depth_pos (ty : SigType) : 0 < ty.depth := by
  cases ty <;> exact Nat.zero_lt_succ _

theorem MethodSig.depth_pos (m : MethodSig) : 0 < m.depth := by
  cases m
  exact Nat.zero_lt_succ _

/-- What the grammars of one level must spell for those of the next. -/
structure SpellsBelow (limit n : Nat) (T : Bool → Grammar SigType) (M : Bool → Grammar MethodSig) :
    Prop where
  type_ : ∀ (ty : SigType) seen, ty.depth ≤ n → ty.Normal limit seen → (T seen).Spells ty ty.enc
  method : ∀ (m : MethodSig) seen, m.depth ≤ n → m.Normal limit seen → (M seen).Spells m m.enc

/-- A type that is not `Modified`: one case per constructor. -/
theorem SpellsBelow.plain (h : SpellsBelow limit n T M) {ty : SigType} {seen : Bool}
    (hdepth : ty.depth ≤ n + 1) (hnormal : ty.Normal limit seen) (hplain : ty.isModified = false) :
    (plainGrammar limit T M seen).Spells ty ty.enc := by
  cases ty with
  | modified mods inner => cases hplain
  -- these two are no types of their own, and never spelled
  | sentinel => exact hnormal.elim
  | internal handle => exact hnormal.elim
  | ptr mods inner =>
      obtain ⟨hmods, hinner, hnormal⟩ := hnormal
      have hspells := h.type_ inner seen (Nat.le_of_succ_le_succ hdepth) hnormal
      exact spells_byte (spells_modsThen hmods (hspells.map _) (SigType.head_enc hinner).2)
  | szArray mods element =>
      obtain ⟨hmods, hinner, hnormal⟩ := hnormal
      have hspells := h.type_ element seen (Nat.le_of_succ_le_succ hdepth) hnormal
      exact spells_byte (spells_modsThen hmods (hspells.map _) (SigType.head_enc hinner).2)
  | byRef inner =>
      have hspells := h.type_ inner seen (Nat.le_of_succ_le_succ hdepth) hnormal
      exact spells_byte (hspells.map SigType.byRef)
  | valueType token => exact spells_byte ((Token.spells_typeBytes hnormal).map SigType.valueType)
  | class_ token => exact spells_byte ((Token.spells_typeBytes hnormal).map SigType.class_)
  | var index => exact spells_byte ((spells_bytes hnormal).map SigType.var)
  | mvar index => exact spells_byte ((spells_bytes hnormal).map SigType.mvar)
  | array element shape =>
      obtain ⟨hnormal, hshape⟩ := hnormal
      have hspells := h.type_ element seen (Nat.le_of_succ_le_succ hdepth) hnormal
      exact spells_byte (hspells.bind ((ArrayShape.spells_enc hshape).map (SigType.array element)))
  | genericInst isValueType definition args =>
      obtain ⟨htoken, hlen, hnormal⟩ := hnormal
      have hdepths := SigType.depthAll_le.mp (Nat.le_of_succ_le_succ hdepth)
      have hargs : ∀ ty ∈ args, (T seen).Spells ty ty.enc := fun ty hty =>
        h.type_ ty seen (hdepths ty hty) (SigType.normalAll_iff.mp hnormal ty hty)
      have hkind : (byteGrammar.filterMap genericKindOf?).Spells isValueType
          [if isValueType then ElementType.valueType else ElementType.class_] := by
        refine Grammar.Spells.filterMap (spells_u8 _) ?_
        cases isValueType <;> rfl
      have hcounted := spells_counted hlen hargs
      rw [← SigType.encAll_eq] at hcounted
      exact spells_byte (hkind.bind ((Token.spells_typeBytes htoken).bind (hcounted.map _)))
  | fnPtr m =>
      have hspells := h.method m seen (Nat.le_of_succ_le_succ hdepth) hnormal
      exact spells_byte (hspells.map SigType.fnPtr)
  | pinned inner =>
      obtain ⟨hseen, hnormal⟩ := hnormal
      have hspells := h.type_ inner true (Nat.le_of_succ_le_succ hdepth) hnormal
      exact spells_byte ((hspells.map SigType.pinned).guard hseen)
  | _ => exact spells_byte (Grammar.Spells.pure _)

/-- A type one level up. -/
theorem SpellsBelow.typeInner (h : SpellsBelow limit n T M) {ty : SigType} {seen : Bool}
    (hdepth : ty.depth ≤ n + 1) (hnormal : ty.Normal limit seen) :
    (typeInnerGrammar limit T M seen).Spells ty ty.enc := by
  cases hmod : ty.isModified with
  | false =>
      have hspells : (plainGrammar limit T M seen).Spells ty ty.enc := h.plain hdepth hnormal hmod
      have hnil : NormalMods limit [] := ⟨Nat.zero_le _, fun _ h => nomatch h⟩
      exact spells_modsThen hnil hspells (SigType.head_enc hmod).2
  | true =>
      cases ty with
      | modified mods inner =>
          obtain ⟨hne, hmods, hinner, hnormal⟩ := hnormal
          have hspells := h.type_ inner seen (Nat.le_of_succ_le_succ hdepth) hnormal
          refine spells_modsThen hmods ?_ (SigType.head_enc hinner).2
          rw [if_neg (by rwa [List.isEmpty_iff])]
          exact hspells.map (SigType.modified mods)
      | _ => cases hmod

/-- The byte a parameter without modifiers starts with. -/
theorem head_byRef {byRef : Bool} {ty : SigType}
    (h : byRef = false → ty.isByRef = false ∧ ty.isModified = false) :
    ∃ b, ((if byRef then [ElementType.byRef] else []) ++ ty.enc).head? = some b ∧
      modKind? b = none ∧ (b = ElementType.byRef ∨ b = ty.code) := by
  cases byRef with
  | true => exact ⟨ElementType.byRef, rfl, rfl, .inl rfl⟩
  | false =>
      obtain ⟨_, hmod⟩ := h rfl
      exact ⟨ty.code, (SigType.head_enc hmod).1, SigType.modKind_code hmod, .inr rfl⟩

/-- `BYREF` or not, and the type. -/
theorem spells_byRef {T : Grammar SigType} {f : Bool → SigType → α} {byRef : Bool} {ty : SigType}
    (h : byRef = false → ty.isByRef = false ∧ ty.isModified = false) (hT : T.Spells ty ty.enc) :
    (takenThen ElementType.byRef fun byRef => T.map (f byRef)).Spells (f byRef ty)
      ((if byRef then [ElementType.byRef] else []) ++ ty.enc) := by
  refine spells_takenThen (hT.map _) fun hno => ?_
  obtain ⟨hbyRef, hmod⟩ := h hno
  exact ⟨ty.code, (SigType.head_enc hmod).1, SigType.code_ne_byRef hbyRef⟩

theorem spells_param {T : Grammar SigType} {param : Param} {seen : Bool}
    (hnormal : param.Normal limit seen) (hT : T.Spells param.type_ param.type_.enc) :
    (paramGrammar limit T).Spells param param.enc := by
  obtain ⟨mods, byRef, ty⟩ := param
  obtain ⟨hmods, hbyRef, _⟩ := hnormal
  obtain ⟨b, hb, hkind, _⟩ := head_byRef hbyRef
  refine spells_modsThen hmods (spells_byRef hbyRef hT) ?_
  rw [hb]
  exact hkind

/-- No parameter starts with a sentinel. -/
theorem Param.head_enc {param : Param} {seen : Bool} (hnormal : param.Normal limit seen) :
    ∃ b, param.enc.head? = some b ∧ b ≠ ElementType.sentinel := by
  obtain ⟨mods, byRef, ty⟩ := param
  obtain ⟨_, hbyRef, hty⟩ := hnormal
  cases mods with
  | cons mod mods =>
      refine ⟨_, rfl, ?_⟩
      cases mod.required <;> decide
  | nil =>
      obtain ⟨b, hb, _, hcode⟩ := head_byRef hbyRef
      refine ⟨b, hb, ?_⟩
      rcases hcode with rfl | rfl
      · decide
      · exact SigType.code_ne_sentinel hty

/-! ## Method signatures -/

/-- The bits of a generic method's first byte do not disturb each other. -/
theorem generic_byte : ∀ hasThis explicitThis : Bool,
    methodByte (.generic 0) hasThis explicitThis &&& CallingConvention.mask = 0 ∧
    methodByte (.generic 0) hasThis explicitThis &&& CallingConvention.generic ≠ 0 ∧
    decide (methodByte (.generic 0) hasThis explicitThis &&& CallingConvention.hasThis ≠ 0) =
      hasThis ∧
    decide (methodByte (.generic 0) hasThis explicitThis &&& CallingConvention.explicitThis ≠ 0) =
      explicitThis := by
  decide

theorem methodHeaderOf_byte {convention : CallConv} (h : convention.IsMethod)
    (hasThis explicitThis : Bool) {count : Nat}
    (hcount : ∀ n, convention = .generic n → n = count) :
    methodHeaderOf? (methodByte convention hasThis explicitThis) count =
      some ⟨convention, hasThis, explicitThis⟩ := by
  cases convention with
  | generic n =>
      obtain rfl := hcount n rfl
      have hbyte : methodByte (.generic n) hasThis explicitThis =
          methodByte (.generic 0) hasThis explicitThis := rfl
      obtain ⟨hmask, hgeneric, hthis, hexplicit⟩ := generic_byte hasThis explicitThis
      rw [hbyte, methodHeaderOf?, CallConv.ofByte?, hmask, hthis, hexplicit]
      exact congrArg (Option.map _) (congrArg some (if_pos hgeneric))
  | field => exact h.elim
  | localSig => exact h.elim
  | property => exact h.elim
  | genericInst => exact h.elim
  | _ => cases hasThis <;> cases explicitThis <;> rfl

theorem spells_header {convention : CallConv} (h : convention.IsMethod)
    (hasThis explicitThis : Bool) :
    headerGrammar.Spells ⟨convention, hasThis, explicitThis⟩
      (methodHeaderBytes convention hasThis explicitThis) := by
  refine spells_byte ?_
  cases convention with
  | generic count =>
      refine Grammar.Spells.filterMap (a := count) ?_
        (methodHeaderOf_byte h hasThis explicitThis fun n hn => by cases hn; rfl)
      have hbit : methodByte (.generic count) hasThis explicitThis &&&
          CallingConvention.generic ≠ 0 := (generic_byte hasThis explicitThis).2.1
      rw [if_pos hbit]
      exact spells_bytes h
  | field => exact h.elim
  | localSig => exact h.elim
  | property => exact h.elim
  | genericInst => exact h.elim
  | _ =>
      refine Grammar.Spells.filterMap (a := 0) ?_
        (methodHeaderOf_byte h hasThis explicitThis fun n hn => nomatch hn)
      cases hasThis <;> cases explicitThis <;> exact Grammar.Spells.pure 0

/-- A parameter that is spelled and does not look like a sentinel. -/
def SpelledParam (R : Grammar Param) (param : Param) : Prop :=
  R.Spells param param.enc ∧ ∃ b, param.enc.head? = some b ∧ b ≠ ElementType.sentinel

theorem head_append_of_some {bs tl : List UInt8} {b : UInt8} (h : bs.head? = some b) :
    (bs ++ tl).head? = some b := by
  obtain ⟨tl', rfl⟩ := List.head?_eq_some_iff.mp h
  rfl

/-- One parameter, after the sentinel or not, in front of the others. -/
theorem spells_params_cons {R : Grammar Param} {param : Param} {past past' : Bool} {n : Nat}
    {others : List Param × List Param} {cs bs : List UInt8} (hparam : SpelledParam R param)
    (hothers : (methodParamsGrammar R n past').Spells others bs)
    (hpast : ∀ b, b ≠ ElementType.sentinel → SentinelAhead past past' cs (some b)) :
    (methodParamsGrammar R (n + 1) past).Spells
      (if past' then (others.1, param :: others.2) else (param :: others.1, others.2))
      (cs ++ (param.enc ++ bs)) := by
  obtain ⟨hspells, b, hhead, hne⟩ := hparam
  refine Grammar.Spells.ahead (a := past') ?_ ?_
  · rw [head_append_of_some hhead]
    exact hpast b hne
  · exact hspells.bind (hothers.map fun others =>
      if past' then (others.1, param :: others.2) else (param :: others.1, others.2))

theorem spells_varargs {R : Grammar Param} {varargs : List Param}
    (h : ∀ param ∈ varargs, SpelledParam R param) :
    (methodParamsGrammar R varargs.length true).Spells ([], varargs) (Param.encAll varargs) := by
  induction varargs with
  | nil => exact Grammar.Spells.pure _
  | cons param varargs ih =>
      obtain ⟨hparam, hvarargs⟩ := List.forall_mem_cons.mp h
      exact spells_params_cons hparam (ih hvarargs) fun b hb => .inr ⟨rfl, rfl, b, rfl, hb⟩

/-- The parameters, and a sentinel in front of those of the vararg part. -/
theorem spells_params {R : Grammar Param} {params varargs : List Param}
    (hparams : ∀ param ∈ params, SpelledParam R param)
    (hvarargs : ∀ param ∈ varargs, SpelledParam R param) :
    (methodParamsGrammar R (params.length + varargs.length) false).Spells (params, varargs)
      (Param.encAll params ++ ((if varargs.isEmpty then [] else [ElementType.sentinel]) ++
        Param.encAll varargs)) := by
  induction params with
  | nil =>
      cases varargs with
      | nil => exact Grammar.Spells.pure _
      | cons param varargs =>
          obtain ⟨hparam, hothers⟩ := List.forall_mem_cons.mp hvarargs
          rw [List.length_nil, Nat.zero_add, List.length_cons]
          exact spells_params_cons hparam (spells_varargs hothers)
            fun b _ => .inl ⟨rfl, rfl, rfl⟩
  | cons param params ih =>
      obtain ⟨hparam, hothers⟩ := List.forall_mem_cons.mp hparams
      rw [List.length_cons, Nat.succ_add, Param.encAll, List.append_assoc]
      exact spells_params_cons hparam (ih hothers) fun b hb => .inr ⟨rfl, rfl, b, rfl, hb⟩

/-- A method signature one level up. -/
theorem SpellsBelow.methodInner (h : SpellsBelow limit n T M) {m : MethodSig} {seen : Bool}
    (hdepth : m.depth ≤ n + 1) (hnormal : m.Normal limit seen) :
    (methodInnerGrammar (paramGrammar limit (T seen))).Spells m m.enc := by
  obtain ⟨raw, convention, hasThis, explicitThis, returnType, params, varargs⟩ := m
  obtain ⟨hconvention, hcount, hreturn, hparams, hvarargs, hraw⟩ := hnormal
  obtain ⟨hreturnDepth, hdepths⟩ := Nat.max_le.mp (Nat.le_of_succ_le_succ hdepth)
  obtain ⟨hparamsDepth, hvarargsDepth⟩ := Nat.max_le.mp hdepths
  have hparam : ∀ param : Param, param.Normal limit seen → param.depth ≤ n →
      SpelledParam (paramGrammar limit (T seen)) param := by
    rintro ⟨mods, byRef, ty⟩ hnormal hdepth
    exact ⟨spells_param hnormal (h.type_ ty seen hdepth hnormal.2.2), Param.head_enc hnormal⟩
  have hlists := spells_params
    (fun param hmem => hparam param (Param.normalAll_iff.mp hparams param hmem)
      (Param.depthAll_le.mp hparamsDepth param hmem))
    (fun param hmem => hparam param (Param.normalAll_iff.mp hvarargs param hmem)
      (Param.depthAll_le.mp hvarargsDepth param hmem))
  have hparts : (methodPartsGrammar (paramGrammar limit (T seen))).Spells
      ⟨[], convention, hasThis, explicitThis, returnType, params, varargs⟩
      (MethodSig.enc ⟨raw, convention, hasThis, explicitThis, returnType, params, varargs⟩) := by
    refine Grammar.Spells.bind (spells_header hconvention hasThis explicitThis) ?_
    refine Grammar.Spells.bind (spells_bytes hcount) ?_
    refine Grammar.Spells.bind (hparam returnType hreturn hreturnDepth).1 ?_
    exact hlists.map fun lists => (⟨[], convention, hasThis, explicitThis, returnType, lists.1,
      lists.2⟩ : MethodSig)
  have hsourced := hparts.sourced fun raw m => { m with raw }
  rw [hraw]
  exact hsourced

/-- A normal value is spelled by its encoding: by induction on the depth. -/
theorem spells_enc (limit : Nat) :
    ∀ n, SpellsBelow limit n (typeGrammar limit n) (methodGrammar limit n) := by
  intro n
  induction n with
  | zero =>
      refine ⟨?_, ?_⟩
      · intro ty seen hdepth _
        exact absurd hdepth (Nat.not_le.mpr (SigType.depth_pos ty))
      · intro m seen hdepth _
        exact absurd hdepth (Nat.not_le.mpr (MethodSig.depth_pos m))
  | succ n ih =>
      refine ⟨?_, ?_⟩
      · intro ty seen hdepth hnormal
        rw [typeGrammar]
        exact ih.typeInner hdepth hnormal
      · intro m seen hdepth hnormal
        rw [methodGrammar]
        exact ih.methodInner hdepth hnormal

/-! ## Locals -/

theorem NormalMods.take {mods : List CustomMod} (h : NormalMods limit mods) (k : Nat) :
    NormalMods limit (mods.take k) := by
  refine ⟨?_, fun mod hmod => h.2 mod (List.mem_of_mem_take hmod)⟩
  exact Nat.le_trans (List.length_take_le' k mods) h.1

theorem NormalMods.drop {mods : List CustomMod} (h : NormalMods limit mods) (k : Nat) :
    NormalMods limit (mods.drop k) := by
  refine ⟨?_, fun mod hmod => h.2 mod (List.mem_of_mem_drop hmod)⟩
  rw [List.length_drop]
  exact Nat.le_trans (Nat.sub_le _ _) h.1

/-- `BYREF` or not, and a type that is not `Pinned`. -/
theorem spells_localType {T : Grammar SigType} {l : LocalVar} {mods more : List CustomMod}
    (hmods : mods ++ more = l.customMods) (hnormal : l.Normal limit)
    (hT : T.Spells l.type_ l.type_.enc) :
    (takenThen ElementType.byRef fun byRef => T.bind fun type_ =>
      (Grammar.pure (⟨mods ++ more, l.pinned, byRef, type_⟩ : LocalVar)).guard
        (type_.isPinned = false)).Spells l
      ((if l.byRef then [ElementType.byRef] else []) ++ l.type_.enc) := by
  obtain ⟨_, hbyRef, hpinned, _⟩ := hnormal
  have hlocal : (⟨mods ++ more, l.pinned, l.byRef, l.type_⟩ : LocalVar) = l := by
    rw [hmods]
  refine spells_takenThen ?_ fun hno => ?_
  · have hend := hT.bind (S := fun type_ =>
      (Grammar.pure (⟨mods ++ more, l.pinned, l.byRef, type_⟩ : LocalVar)).guard
        (type_.isPinned = false)) ((Grammar.Spells.pure _).guard hpinned)
    rwa [hlocal, List.append_nil] at hend
  · obtain ⟨hno, hmod⟩ := hbyRef hno
    exact ⟨l.type_.code, (SigType.head_enc hmod).1, SigType.code_ne_byRef hno⟩

theorem LocalVar.head_type {l : LocalVar} (hnormal : l.Normal limit) :
    ∃ b, ((if l.byRef then [ElementType.byRef] else []) ++ l.type_.enc).head? = some b ∧
      modKind? b = none ∧ b ≠ ElementType.pinned ∧
      (b = ElementType.typedByRef → l.byRef = false ∧ l.type_ = .typedByRef) := by
  obtain ⟨_, hbyRef, hpinned, _⟩ := hnormal
  cases h : l.byRef with
  | true =>
      exact ⟨ElementType.byRef, rfl, rfl, by decide, fun h => absurd h (by decide)⟩
  | false =>
      obtain ⟨_, hmod⟩ := hbyRef h
      exact ⟨l.type_.code, (SigType.head_enc hmod).1, SigType.modKind_code hmod,
        SigType.code_ne_pinned hpinned, fun hcode => ⟨rfl, SigType.eq_typedByRef hcode⟩⟩

theorem spells_plainLocal {T : Grammar SigType} {l : LocalVar} (before : Nat)
    (hnormal : l.Normal limit) (hT : T.Spells l.type_ l.type_.enc) :
    (plainLocalGrammar limit T).Spells l (l.enc before) := by
  obtain ⟨b, hb, hkind, hne, _⟩ := LocalVar.head_type hnormal
  rw [LocalVar.enc]
  cases hpinned : l.pinned with
  | true =>
      have hsplit := List.take_append_drop before l.customMods
      have hend := spells_localType hsplit hnormal hT
      rw [hpinned] at hend
      have hmore := mods_enc (hnormal.1.drop before) (o := some b) hkind
      rw [if_pos rfl, List.append_assoc, List.cons_append]
      refine spells_modsThen (hnormal.1.take before) ?_ rfl
      refine spells_takenThen (t := true) ?_ fun h => nomatch h
      refine Grammar.Spells.ahead (a := l.customMods.drop before) ?_ hend
      rw [hb]
      exact hmore
  | false =>
      have hend := spells_localType (List.append_nil l.customMods) hnormal hT
      rw [hpinned] at hend
      rw [if_neg Bool.false_ne_true]
      refine spells_modsThen hnormal.1 ?_ (by rw [hb]; exact hkind)
      refine spells_takenThen (t := false) ?_ fun _ => ⟨b, hb, hne⟩
      show (Grammar.ahead _ _).Spells l
        ([] ++ ((if l.byRef then [ElementType.byRef] else []) ++ l.type_.enc))
      refine Grammar.Spells.ahead (a := []) ?_ hend
      exact ⟨rfl, rfl⟩

/-- Only the bare `TYPEDBYREF` starts with that byte. -/
theorem LocalVar.head_enc {l : LocalVar} (before : Nat) (hnormal : l.Normal limit) :
    l = ⟨[], false, false, .typedByRef⟩ ∨
      ∃ b, (l.enc before).head? = some b ∧ b ≠ ElementType.typedByRef := by
  have hmod : ∀ (mods : List CustomMod) (tl : List UInt8), mods ≠ [] →
      ∃ b, (mods.flatMap CustomMod.enc ++ tl).head? = some b ∧ b ≠ ElementType.typedByRef := by
    intro mods tl hne
    cases mods with
    | nil => exact absurd rfl hne
    | cons mod mods =>
        refine ⟨_, rfl, ?_⟩
        cases mod.required <;> decide
  obtain ⟨b, hb, _, _, hbare⟩ := LocalVar.head_type hnormal
  rw [LocalVar.enc]
  obtain ⟨mods, pinned, byRef, ty⟩ := l
  cases pinned with
  | true =>
      right
      rw [if_pos rfl, List.append_assoc]
      by_cases hne : mods.take before = []
      · rw [hne]
        exact ⟨ElementType.pinned, rfl, by decide⟩
      · exact hmod _ _ hne
  | false =>
      rw [if_neg Bool.false_ne_true]
      by_cases hne : mods = []
      · subst hne
        by_cases hcode : b = ElementType.typedByRef
        · obtain ⟨rfl, rfl⟩ := hbare hcode
          exact .inl rfl
        · exact .inr ⟨b, hb, hcode⟩
      · exact .inr (hmod _ _ hne)

theorem spells_local {T : Grammar SigType} {l : LocalVar} (before : Nat)
    (hnormal : l.Normal limit) (hT : T.Spells l.type_ l.type_.enc) :
    (localGrammar limit T).Spells l (l.enc before) := by
  rcases LocalVar.head_enc before hnormal with rfl | hhead
  · exact spells_takenThen (t := true) (Grammar.Spells.pure _) fun h => nomatch h
  · exact spells_takenThen (t := false) (spells_plainLocal before hnormal hT) fun _ => hhead

theorem spells_locals {T : Grammar SigType} {locals : List LocalVar} (before : Nat → Nat)
    (h : ∀ l ∈ locals, l.Normal limit ∧ T.Spells l.type_ l.type_.enc) :
    ((localGrammar limit T).repeated locals.length).Spells locals
      (LocalVar.encAll before locals) := by
  induction locals generalizing before with
  | nil => exact Grammar.Spells.pure []
  | cons l locals ih =>
      obtain ⟨⟨hnormal, hT⟩, hlocals⟩ := List.forall_mem_cons.mp h
      exact (spells_local (before 0) hnormal hT).bind ((ih _ hlocals).map (l :: ·))

/-! ## The entry points -/

/-- The number of parameters a method signature declares. -/
def MethodSig.declaredCount (blob : List UInt8) (options : SignatureOptions) : Result Nat :=
  finish ((methodHeader 0 >>= fun _ => cu32).run (Parser.new blob options))

theorem MethodSig.declaredCount_enc {options : SignatureOptions} {m : MethodSig}
    (hnormal : m.Normal options.limit false) (s : List UInt8) :
    MethodSig.declaredCount (m.enc ++ s) options = .ok m.paramCount := by
  obtain ⟨raw, convention, hasThis, explicitThis, returnType, params, varargs⟩ := m
  obtain ⟨hconvention, hcount, _⟩ := hnormal
  have haccepts : Accepts (At options.limit 0 false) (methodHeader 0 >>= fun _ => cu32)
      (headerGrammar.bind fun _ => cu32Grammar) :=
    Accepts.bind (stable_at options.limit 0 false) (accepts_methodHeader 0) fun _ => accepts_cu32
  have hspells : (headerGrammar.bind fun _ => cu32Grammar).Spells
      (params.length + varargs.length) _ :=
    (spells_header hconvention hasThis explicitThis).bind (spells_bytes hcount)
  have hparsed := Parser.parsed_of_spells haccepts hspells
    (returnType.enc ++ (Param.encAll params ++ ((if varargs.isEmpty then [] else
      [ElementType.sentinel]) ++ Param.encAll varargs)) ++ s)
  simp only [List.append_assoc] at hparsed
  simp only [MethodSig.declaredCount, MethodSig.enc, List.append_assoc]
  exact hparsed

theorem SigType.spells_normal {ty : SigType} (hnormal : ty.Normal limit false)
    (hdepth : ty.depth ≤ limit) : (SigType.grammar limit).Spells ty ty.enc :=
  (spells_enc limit limit).type_ ty false hdepth hnormal

theorem Param.spells_normal {param : Param} (hnormal : param.Normal limit false)
    (hdepth : param.depth ≤ limit) : (Param.grammar limit).Spells param param.enc := by
  obtain ⟨mods, byRef, ty⟩ := param
  exact spells_param hnormal (SigType.spells_normal hnormal.2.2 hdepth)

theorem spells_convention {expected byte : UInt8}
    (h : byte &&& CallingConvention.mask = expected) :
    (conventionGrammar expected).Spells byte [byte] :=
  spells_byte ((Grammar.Spells.pure byte).guard h)

theorem FieldSig.spells_enc {sig : FieldSig} (h : sig.Normal limit) (blob : List UInt8) :
    (FieldSig.grammar limit blob).Spells { sig with raw := blob } sig.enc := by
  obtain ⟨hmods, hmod, hnormal, hdepth⟩ := h
  have hty := SigType.spells_normal hnormal hdepth
  exact Grammar.Spells.bind (spells_convention (by decide))
    (spells_modsThen hmods (hty.map (FieldSig.mk blob sig.customMods)) (SigType.head_enc hmod).2)

theorem LocalVarSig.spells_enc {sig : LocalVarSig} (h : sig.Normal limit) (before : Nat → Nat)
    (blob : List UInt8) :
    (LocalVarSig.grammar limit blob).Spells { sig with raw := blob } (sig.enc before) := by
  obtain ⟨hlen, hlocals⟩ := h
  have hspells := spells_locals (T := SigType.grammar limit) before fun l hl =>
    ⟨hlocals l hl, SigType.spells_normal (hlocals l hl).2.2.2.1 (hlocals l hl).2.2.2.2⟩
  have hcounted : (countedGrammar (localGrammar limit (SigType.grammar limit))).Spells sig.locals
      _ := (spells_bytes hlen).bind hspells
  exact Grammar.Spells.bind (spells_convention (by decide)) (hcounted.map (LocalVarSig.mk blob))

theorem PropertySig.spells_enc {sig : PropertySig} (h : sig.Normal limit) (blob : List UInt8) :
    (PropertySig.grammar limit blob).Spells { sig with raw := blob } sig.enc := by
  obtain ⟨raw, hasThis, returnType, params⟩ := sig
  obtain ⟨hlen, hparams⟩ := h
  obtain ⟨hreturn, hparams⟩ := List.forall_mem_cons.mp hparams
  have hspells := Grammar.Spells.repeated_flatMap fun param hparam =>
    Param.spells_normal (hparams param hparam).1 (hparams param hparam).2
  rw [← Param.encAll_eq] at hspells
  have hbyte : ∀ hasThis : Bool, ((CallingConvention.property |||
      (if hasThis then CallingConvention.hasThis else 0)) &&& CallingConvention.mask =
        CallingConvention.property) ∧ decide ((CallingConvention.property |||
      (if hasThis then CallingConvention.hasThis else 0)) &&& CallingConvention.hasThis ≠ 0) =
        hasThis := by
    decide
  obtain ⟨hmask, hthis⟩ := hbyte hasThis
  refine Grammar.Spells.bind (spells_convention hmask) ?_
  refine Grammar.Spells.bind (spells_bytes hlen) ?_
  refine Grammar.Spells.bind (Param.spells_normal hreturn.1 hreturn.2) ?_
  have hsig := congrArg (fun b => (⟨blob, b, returnType, params⟩ : PropertySig)) hthis
  rw [← hsig]
  exact hspells.map (PropertySig.mk blob _ returnType)

theorem MethodSpecSig.spells_enc {sig : MethodSpecSig} (h : sig.Normal limit)
    (blob : List UInt8) :
    (MethodSpecSig.grammar limit blob).Spells { sig with raw := blob } sig.enc := by
  obtain ⟨hlen, hargs⟩ := h
  have hcounted := spells_counted hlen fun ty hty =>
    SigType.spells_normal (hargs ty hty).1 (hargs ty hty).2
  rw [← SigType.encAll_eq] at hcounted
  exact Grammar.Spells.bind (spells_convention (by decide)) (hcounted.map (MethodSpecSig.mk blob))

/-- The six parsers read a value in normal form back from its encoding, whatever follows it.
The sentinel splits the parameters, and their number is the one that is declared. -/
theorem signatures_round_trip (options : SignatureOptions) (s : List UInt8) :
    (∀ m : MethodSig, m.Normal options.limit false → m.depth ≤ options.limit →
      MethodSig.parseWith (m.enc ++ s) options = .ok m ∧
        MethodSig.declaredCount (m.enc ++ s) options = .ok m.paramCount) ∧
    (∀ sig : FieldSig, sig.Normal options.limit →
      FieldSig.parseWith (sig.enc ++ s) options = .ok { sig with raw := sig.enc ++ s }) ∧
    (∀ (sig : LocalVarSig) (before : Nat → Nat), sig.Normal options.limit →
      LocalVarSig.parseWith (sig.enc before ++ s) options =
        .ok { sig with raw := sig.enc before ++ s }) ∧
    (∀ sig : PropertySig, sig.Normal options.limit →
      PropertySig.parseWith (sig.enc ++ s) options = .ok { sig with raw := sig.enc ++ s }) ∧
    (∀ sig : MethodSpecSig, sig.Normal options.limit →
      MethodSpecSig.parseWith (sig.enc ++ s) options = .ok { sig with raw := sig.enc ++ s }) ∧
    (∀ sig : TypeSpecSig, sig.Normal options.limit →
      TypeSpecSig.parseWith (sig.enc ++ s) options = .ok { sig with raw := sig.enc ++ s }) := by
  refine ⟨?_, ?_, ?_, ?_, ?_, ?_⟩
  · intro m hnormal hdepth
    have hspells := (spells_enc options.limit options.limit).method m false hdepth hnormal
    exact ⟨Parser.parsed_of_spells (MethodSig.accepts options.limit) hspells s,
      MethodSig.declaredCount_enc hnormal s⟩
  · intro sig h
    exact Parser.parsed_of_spells (FieldSig.accepts options.limit _) (FieldSig.spells_enc h _) s
  · intro sig before h
    exact Parser.parsed_of_spells (LocalVarSig.accepts options.limit _)
      (LocalVarSig.spells_enc h before _) s
  · intro sig h
    exact Parser.parsed_of_spells (PropertySig.accepts options.limit _)
      (PropertySig.spells_enc h _) s
  · intro sig h
    exact Parser.parsed_of_spells (MethodSpecSig.accepts options.limit _)
      (MethodSpecSig.spells_enc h _) s
  · intro sig h
    have hty := SigType.spells_normal h.1 h.2
    exact Parser.parsed_of_spells (TypeSpecSig.accepts options.limit _)
      (hty.map (TypeSpecSig.mk (sig.enc ++ s))) s

/-- `void (string, ..., int32&)`, a vararg call. -/
def printf : MethodSig where
  raw := [0x05, 0x02, 0x01, 0x0E, 0x41, 0x10, 0x08]
  callingConvention := .varArg
  hasThis := false
  explicitThis := false
  returnType := ⟨[], false, .void⟩
  params := [⟨[], false, .string⟩]
  varargParams := [⟨[], true, .i4⟩]

/-- A two-dimensional array of `modreq(TypeRef 1) void*`. -/
def pointerGrid : SigType :=
  .array (.ptr [⟨true, Token.new .typeRef 1⟩] .void) ⟨2, [], []⟩

theorem normalMods_nil : NormalMods SignatureOptions.default.limit [] :=
  ⟨Nat.zero_le _, fun _ h => nomatch h⟩

theorem printf_normal : printf.Normal SignatureOptions.default.limit false := by
  have hplain : ∀ ty : SigType, ty.isByRef = false ∧ ty.isModified = false →
      ty.Normal SignatureOptions.default.limit false → ∀ byRef,
      (⟨[], byRef, ty⟩ : Param).Normal SignatureOptions.default.limit false := by
    intro ty hhead hnormal byRef
    exact ⟨normalMods_nil, fun _ => hhead, hnormal⟩
  refine ⟨trivial, by decide, ?_, ⟨?_, trivial⟩, ⟨?_, trivial⟩, by decide⟩
  · exact hplain .void ⟨rfl, rfl⟩ trivial false
  · exact hplain .string ⟨rfl, rfl⟩ trivial false
  · exact hplain .i4 ⟨rfl, rfl⟩ trivial true

theorem pointerGrid_normal : pointerGrid.Normal SignatureOptions.default.limit false := by
  have hmods : NormalMods SignatureOptions.default.limit [⟨true, Token.new .typeRef 1⟩] := by
    refine ⟨by decide, ?_⟩
    intro mod hmod
    obtain rfl := List.mem_singleton.mp hmod
    exact .inr (.inl (Token.table_new .typeRef 1))
  have hshape : ArrayShape.Normal ⟨2, [], []⟩ :=
    ⟨by decide, by decide, fun _ h => (nomatch h), by decide, fun _ h => (nomatch h), by decide⟩
  exact ⟨⟨hmods, rfl, trivial⟩, hshape⟩

/-- One value for each parser, with a byte after its encoding. -/
theorem signatures_round_trip_default :
    MethodSig.parseWith (printf.enc ++ [0xFF]) .default = .ok printf ∧
    FieldSig.parseWith ((⟨[], [], pointerGrid⟩ : FieldSig).enc ++ [0xFF]) .default =
      .ok ⟨[0x06, 0x14, 0x0F, 0x1F, 0x05, 0x01, 0x02, 0x00, 0x00, 0xFF], [], pointerGrid⟩ ∧
    LocalVarSig.parseWith
      ((⟨[], [⟨[], true, true, .u1⟩]⟩ : LocalVarSig).enc (fun _ => 0) ++ [0xFF]) .default =
      .ok ⟨[0x07, 0x01, 0x45, 0x10, 0x05, 0xFF], [⟨[], true, true, .u1⟩]⟩ ∧
    PropertySig.parseWith
      ((⟨[], true, ⟨[], false, .i4⟩, []⟩ : PropertySig).enc ++ [0xFF]) .default =
      .ok ⟨[0x28, 0x00, 0x08, 0xFF], true, ⟨[], false, .i4⟩, []⟩ ∧
    MethodSpecSig.parseWith ((⟨[], [pointerGrid]⟩ : MethodSpecSig).enc ++ [0xFF]) .default =
      .ok ⟨[0x0A, 0x01, 0x14, 0x0F, 0x1F, 0x05, 0x01, 0x02, 0x00, 0x00, 0xFF], [pointerGrid]⟩ ∧
    TypeSpecSig.parseWith ((⟨[], pointerGrid⟩ : TypeSpecSig).enc ++ [0xFF]) .default =
      .ok ⟨[0x14, 0x0F, 0x1F, 0x05, 0x01, 0x02, 0x00, 0x00, 0xFF], pointerGrid⟩ := by
  have h := signatures_round_trip .default [0xFF]
  refine ⟨(h.1 printf printf_normal (by decide)).1, ?_, ?_, ?_, ?_, ?_⟩
  · exact h.2.1 ⟨[], [], pointerGrid⟩ ⟨normalMods_nil, rfl, pointerGrid_normal, by decide⟩
  · refine h.2.2.1 ⟨[], [⟨[], true, true, .u1⟩]⟩ (fun _ => 0) ⟨by decide, ?_⟩
    intro l hl
    obtain rfl := List.mem_singleton.mp hl
    exact ⟨normalMods_nil, fun _ => ⟨rfl, rfl⟩, rfl, trivial, by decide⟩
  · refine h.2.2.2.1 ⟨[], true, ⟨[], false, .i4⟩, []⟩ ⟨by decide, ?_⟩
    intro param hparam
    obtain rfl := List.mem_singleton.mp hparam
    exact ⟨⟨normalMods_nil, fun _ => ⟨rfl, rfl⟩, trivial⟩, by decide⟩
  · refine h.2.2.2.2.1 ⟨[], [pointerGrid]⟩ ⟨by decide, ?_⟩
    intro ty hty
    obtain rfl := List.mem_singleton.mp hty
    exact ⟨pointerGrid_normal, by decide⟩
  · exact h.2.2.2.2.2 ⟨[], pointerGrid⟩ ⟨pointerGrid_normal, by decide⟩

end Cildec
