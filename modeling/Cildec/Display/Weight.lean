import Cildec.Display.Outline
import Cildec.Lib.Needs

/-!
# The text of a signature against its bytes

What a signature renders as, without the names of the tokens in it, is bounded by its bytes:
a byte brings in at most 32 characters, and where it starts an array as many commas as the
rank, which the parser bounds by the bytes that are left (`typeGrammar_weight`).
-/

namespace Cildec

open Wire Cildec.Parser

/-! ## Numbers -/

theorem length_toString_nat {n k : Nat} (hk : 0 < k) (h : n < 10 ^ k) :
    (toString n).length ≤ k := by
  rw [Nat.toString_eq_repr]
  exact (Nat.length_repr_le_iff hk).mpr h

theorem length_toString_int {i : Int} {k : Nat} (hk : 0 < k) (h : i.natAbs < 10 ^ k) :
    (toString i).length ≤ k + 1 := by
  cases i with
  | ofNat n => exact Nat.le_succ_of_le (length_toString_nat hk h)
  | negSucc n =>
      show ("-" ++ toString (n + 1)).length ≤ k + 1
      rw [String.length_append, Nat.add_comm k 1]
      exact Nat.add_le_add_left (length_toString_nat hk h) _

/-! ## Texts -/

/-- Joined texts take their characters and at most a separator each. -/
theorem length_joined_le (separator : String) (parts : List String) :
    (joined separator parts).length ≤ (parts.map fun s => s.length + separator.length).sum := by
  induction parts with
  | nil => exact Nat.zero_le _
  | cons part parts ih =>
      cases parts with
      | nil => exact Nat.le_add_right _ _
      | cons next parts =>
          rw [joined, String.length_append, String.length_append, List.map_cons, List.sum_cons]
          omega

theorem own_joined_le (separator : String) (outlines : List Outline) :
    (Outline.joined separator outlines).own ≤
      (outlines.map fun o => o.own + separator.length).sum := by
  induction outlines with
  | nil => exact Nat.zero_le _
  | cons part parts ih =>
      cases parts with
      | nil => exact Nat.le_add_right _ _
      | cons next parts =>
          show part.own + separator.length + (Outline.joined separator (next :: parts)).own ≤ _
          rw [List.map_cons, List.sum_cons]
          omega

/-- A bound and a size, as long as they can be. -/
theorem length_dimensionString {lo : Option Int} {size : Option Nat}
    (hlo : ∀ i, lo = some i → i.natAbs ≤ 2 ^ 28) (hsize : ∀ n, size = some n → n < 2 ^ 29) :
    (dimensionString lo size).length ≤ 25 ∧
      (lo = none → size = none → dimensionString lo size = "") := by
  cases lo with
  | none =>
      cases size with
      | none => exact ⟨Nat.zero_le _, fun _ _ => rfl⟩
      | some n =>
          have hn := hsize n rfl
          refine ⟨Nat.le_trans (length_toString_nat (k := 10) (by decide) ?_) (by decide),
            fun _ h => by cases h⟩
          omega
  | some i =>
      have hi := hlo i rfl
      have hleft := length_toString_int (i := i) (k := 10) (by decide) (by omega)
      refine ⟨?_, fun h => by cases h⟩
      cases size with
      | none =>
          show (toString i ++ "...").length ≤ 25
          have hdots : "...".length = 3 := rfl
          rw [String.length_append]
          omega
      | some n =>
          have hn := hsize n rfl
          have hright := length_toString_int (i := i + (n : Int) - 1) (k := 10) (by decide)
            (by omega)
          show (toString i ++ "..." ++ toString (i + (n : Int) - 1)).length ≤ 25
          have hdots : "...".length = 3 := rfl
          rw [String.length_append, String.length_append]
          omega

/-! ## Bytes -/

/-- What so many bytes may bring in. -/
def cost (N : Nat) (bs : List UInt8) : Nat := (32 + N) * bs.length

variable {N : Nat}

theorem cost_append (cs ds : List UInt8) : cost N (cs ++ ds) = cost N cs + cost N ds := by
  rw [cost, List.length_append, Nat.mul_add, cost, cost]

theorem le_cost (bs : List UInt8) : 32 * bs.length ≤ cost N bs :=
  Nat.mul_le_mul_right _ (Nat.le_add_right 32 N)

theorem le_cost_of_pos {bs : List UInt8} (h : 0 < bs.length) : 32 + N ≤ cost N bs :=
  Nat.le_mul_of_pos_right _ h

/-- A part that is not empty brings in what a byte may. -/
theorem within_of_nonempty {α : Type} {R : Grammar α} (h : R.Nonempty) :
    R.Within N fun _ bs => 32 + N ≤ cost N bs :=
  Grammar.Within.of_each fun a bs ms hR => le_cost_of_pos (h a bs ms hR)

theorem cu32Grammar_within :
    cu32Grammar.Within N fun v bs => v < 2 ^ 29 ∧ 32 + N ≤ cost N bs := by
  rintro v bs ms _ ⟨h, _⟩ _ _
  have hmax : Compressed.maxCompressedU32 = 2 ^ 29 - 1 := rfl
  have := h.le_max
  exact ⟨by omega, le_cost_of_pos h.length_pos⟩

theorem Compressed.Signed.natAbs_le {v : Int} {bs : List UInt8} (h : Signed v bs) :
    v.natAbs ≤ 2 ^ 28 := by
  obtain ⟨raw, hraw, rfl⟩ := h
  have hmax : maxCompressedU32 = 2 ^ 29 - 1 := rfl
  have hle := hraw.le_max
  have hsign : 0 ≤ signBit bs.length ∧ signBit bs.length ≤ 2 ^ 28 := by
    unfold signBit
    split_ifs <;> decide
  have hshift : raw >>> 1 = raw / 2 := Nat.shiftRight_eq_div_pow raw 1
  unfold rotate
  simp only [hshift]
  split <;> omega

/-- The items of a counted list, each with its bytes. -/
theorem countedGrammar_within {α : Type} {R : Grammar α} {P : α → Prop} {weight : α → Nat}
    (h : R.Within N fun a bs => P a ∧ weight a ≤ cost N bs) :
    (countedGrammar R).Within N fun as bs =>
      (∀ a ∈ as, P a) ∧ (as.map weight).sum ≤ cost N bs := by
  have hrepeated : ∀ count, (R.repeated count).Within N fun as bs =>
      (∀ a ∈ as, P a) ∧ (as.map weight).sum ≤ cost N bs := by
    intro count
    induction count with
    | zero =>
        refine Grammar.Within.of_each (Grammar.Each.pure ⟨?_, Nat.zero_le _⟩)
        intro a hmem
        cases hmem
    | succ count ih =>
        refine Grammar.Within.bind h fun a cs ha => Grammar.Within.map ih fun as ds has => ?_
        rw [List.map_cons, List.sum_cons, cost_append]
        exact ⟨List.forall_mem_cons.mpr ⟨ha.1, has.1⟩, Nat.add_le_add ha.2 has.2⟩
  refine Grammar.Within.bind cu32Grammar_within fun count cs _ =>
    (hrepeated count).mono fun as ds has => ⟨has.1, ?_⟩
  rw [cost_append]
  omega

/-! ## Array shapes -/

/-- Texts of which only the first `k` are not empty. -/
theorem sum_range_le {f : Nat → Nat} {bound k : Nat} (hf : ∀ i, f i ≤ bound)
    (hzero : ∀ i, k ≤ i → f i = 0) (count : Nat) :
    ((List.range count).map f).sum ≤ bound * k := by
  have hmin : ∀ count, ((List.range count).map f).sum ≤ bound * min count k := by
    intro count
    induction count with
    | zero => exact Nat.zero_le _
    | succ count ih =>
        rw [List.range_succ, List.map_append, List.sum_append, List.map_singleton,
          List.sum_singleton]
        by_cases hlt : count < k
        · rw [Nat.min_eq_left hlt, Nat.mul_succ]
          rw [Nat.min_eq_left (Nat.le_of_lt hlt)] at ih
          exact Nat.add_le_add ih (hf count)
        · have hle := Nat.not_lt.mp hlt
          rw [hzero count hle, Nat.add_zero, Nat.min_eq_right (Nat.le_succ_of_le hle)]
          rwa [Nat.min_eq_right hle] at ih
  exact Nat.le_trans (hmin count) (Nat.mul_le_mul_left _ (Nat.min_le_right _ _))

theorem sum_map_add_const {α : Type} (f : α → Nat) (c : Nat) (xs : List α) :
    (xs.map fun x => f x + c).sum = (xs.map f).sum + c * xs.length := by
  induction xs with
  | nil => rfl
  | cons x xs ih =>
      rw [List.map_cons, List.sum_cons, ih, List.map_cons, List.sum_cons, List.length_cons,
        Nat.mul_succ]
      omega

/-- An array takes a comma for each of its dimensions and a text where it has a bound or a
size. -/
theorem length_shapeString {shape : ArrayShape}
    (hlos : ∀ lo ∈ shape.loBounds, lo.natAbs ≤ 2 ^ 28)
    (hsizes : ∀ size ∈ shape.sizes, size < 2 ^ 29) :
    (shapeString shape).length ≤
      2 + shape.rank + 25 * (shape.sizes.length + shape.loBounds.length) := by
  have hdim : ∀ i, (dimensionString shape.loBounds[i]? shape.sizes[i]?).length ≤ 25 ∧
      (shape.loBounds[i]? = none → shape.sizes[i]? = none →
        dimensionString shape.loBounds[i]? shape.sizes[i]? = "") := fun i =>
    length_dimensionString (fun lo h => hlos lo (List.mem_of_getElem? h))
      fun size h => hsizes size (List.mem_of_getElem? h)
  have hsum := sum_range_le
    (f := fun i => (dimensionString shape.loBounds[i]? shape.sizes[i]?).length)
    (k := shape.sizes.length + shape.loBounds.length) (fun i => (hdim i).1)
    (fun i hle => by
      rw [(hdim i).2 (List.getElem?_eq_none (by omega)) (List.getElem?_eq_none (by omega))]
      rfl) shape.rank
  have hjoined := length_joined_le "," ((List.range shape.rank).map fun i =>
    dimensionString shape.loBounds[i]? shape.sizes[i]?)
  rw [sum_map_add_const, List.map_map, List.length_map, List.length_range] at hjoined
  have hcomma : ",".length * shape.rank = shape.rank := Nat.one_mul _
  rw [hcomma] at hjoined
  change _ ≤ ((List.range shape.rank).map fun i =>
    (dimensionString shape.loBounds[i]? shape.sizes[i]?).length).sum + shape.rank at hjoined
  have hbrackets : "[".length = 1 ∧ "]".length = 1 := ⟨rfl, rfl⟩
  rw [shapeString, String.length_append, String.length_append]
  omega

theorem arrayShapeGrammar_within :
    arrayShapeGrammar.Within N fun shape bs =>
      (shapeString shape).length ≤ 3 + N + cost N bs := by
  have hsize : cu32Grammar.Within N fun size bs => size < 2 ^ 29 ∧ 25 ≤ cost N bs :=
    cu32Grammar_within.mono fun size bs h => ⟨h.1, by omega⟩
  have hlo : ci32Grammar.Within N fun lo bs => lo.natAbs ≤ 2 ^ 28 ∧ 25 ≤ cost N bs := by
    rintro lo bs ms _ ⟨h, _⟩ _ _
    obtain ⟨raw, hraw, _⟩ := id h
    have := le_cost_of_pos (N := N) hraw.length_pos
    exact ⟨h.natAbs_le, by omega⟩
  refine Grammar.Within.bind cu32Grammar_within fun rank bs _ =>
    Grammar.Within.need fun hrank => ?_
  refine Grammar.Within.bind (countedGrammar_within hsize) fun sizes cs hsizes =>
    Grammar.Within.map (countedGrammar_within hlo) fun los ds hlos => ?_
  have hshape : (shapeString ⟨rank, sizes, los⟩).length ≤ _ :=
    length_shapeString hlos.1 hsizes.1
  have hcount : ∀ {α : Type} (xs : List α), (xs.map fun _ => 25).sum = 25 * xs.length := by
    intro α xs
    rw [List.map_const', List.sum_replicate, smul_eq_mul, Nat.mul_comm]
  have hfirst := hsizes.2
  have hsecond := hlos.2
  rw [hcount] at hfirst hsecond
  rw [cost_append, cost_append]
  simp only at hshape
  omega

/-! ## Types -/

theorem own_outlineAll {mods : List CustomMod} : ∀ {bs : List UInt8}, Mods mods bs →
    (CustomMod.outlineAll mods).own ≤ cost N bs := by
  induction mods with
  | nil => exact fun _ => Nat.zero_le _
  | cons mod mods ih =>
      rintro bs ⟨b, cs, ds, _, _, hmods, rfl⟩
      have hrest := ih hmods
      have hkeyword : (" " ++ mod.keyword ++ "(").length = 8 := by
        unfold CustomMod.keyword
        cases mod.required <;> rfl
      have hown : (CustomMod.outlineAll (mod :: mods)).own = (CustomMod.outlineAll mods).own +
          ((" " ++ mod.keyword ++ "(").length + 0 + 1) := rfl
      have hbyte := le_cost (N := N) [b]
      have hcost : cost N (b :: (cs ++ ds)) = cost N [b] + (cost N cs + cost N ds) := by
        rw [← cost_append, ← cost_append]
        rfl
      rw [List.length_singleton] at hbyte
      omega

theorem SigType.own_primitive {byte : UInt8} {ty : SigType}
    (h : SigType.primitive? byte = some ty) : ty.outline.own ≤ 11 := by
  unfold SigType.primitive? at h
  split at h <;> first | (cases h; decide) | cases h

/-- The text of a type, with a separator behind it, against its bytes. -/
def TypeFits (N : Nat) (R : Grammar SigType) : Prop :=
  R.Within N fun ty bs => ty.outline.own + 2 ≤ cost N bs

/-- The same of a method signature. -/
def MethodFits (N : Nat) (R : Grammar MethodSig) : Prop :=
  R.Within N fun sig bs => (sig.outline "").own + 2 ≤ cost N bs

variable {limit n : Nat} {T : Bool → Grammar SigType} {M : Bool → Grammar MethodSig}

/-- A type inside another whose own text the first byte pays for. -/
theorem TypeFits.wrap {R : Grammar SigType} (h : TypeFits N R) {f : SigType → SigType}
    (extra : Nat) (hextra : extra ≤ 32) (hf : ∀ ty, (f ty).outline.own = ty.outline.own + extra) :
    (R.map f).Within N fun ty bs => ty.outline.own + 2 ≤ 32 + N + cost N bs := by
  refine Grammar.Within.map h fun ty bs hty => ?_
  rw [hf]
  omega

/-- A type behind modifiers. -/
theorem TypeFits.modified {R : Grammar SigType} (h : TypeFits N R)
    {f : List CustomMod → SigType → SigType} (extra : Nat) (hextra : extra ≤ 32)
    (hf : ∀ mods ty, (f mods ty).outline.own =
      ty.outline.own + (CustomMod.outlineAll mods).own + extra) :
    (modsThen limit fun mods => R.map (f mods)).Within N fun ty bs =>
      ty.outline.own + 2 ≤ 32 + N + cost N bs := by
  refine Grammar.Within.ahead fun mods cs next hmods => Grammar.Within.map h fun ty bs hty => ?_
  have := own_outlineAll (N := N) hmods.1
  rw [hf, cost_append]
  omega

/-- The types of a list, with what separates them. -/
theorem countedGrammar_types {R : Grammar SigType} (h : TypeFits N R) :
    (countedGrammar R).Within N fun args bs =>
      (Outline.joined ", " (SigType.outlines args)).own ≤ cost N bs := by
  have hitem : R.Within N fun ty bs => True ∧ ty.outline.own + 2 ≤ cost N bs :=
    Grammar.Within.mono h fun ty bs hty => ⟨trivial, hty⟩
  refine (countedGrammar_within hitem).mono fun args bs hargs => ?_
  have hjoined := own_joined_le ", " (SigType.outlines args)
  rw [SigType.outlines_eq, List.map_map] at hjoined
  rw [SigType.outlines_eq]
  exact Nat.le_trans hjoined hargs.2

theorem bodyGrammar_weight (hT : ∀ seen, TypeFits N (T seen)) (hM : ∀ seen, MethodFits N (M seen))
    (seen : Bool) (byte : UInt8) :
    (bodyGrammar limit T M seen byte).Within N fun ty bs =>
      ty.outline.own + 2 ≤ 32 + N + cost N bs := by
  have htoken : ∀ {f : Token → SigType} (own : Nat), own ≤ 30 → (∀ t, (f t).outline.own = own) →
      (tokenGrammar.map f).Within N fun ty bs => ty.outline.own + 2 ≤ 32 + N + cost N bs := by
    intro f own hown hf
    refine Grammar.Within.map (within_of_nonempty tokenGrammar_nonempty) fun t bs _ => ?_
    rw [hf]
    omega
  have hindex : ∀ {f : Nat → SigType} (sign : String), sign.length ≤ 2 →
      (∀ v, (f v).outline.own = (sign ++ toString v).length) →
      (cu32Grammar.map f).Within N fun ty bs => ty.outline.own + 2 ≤ 32 + N + cost N bs := by
    intro f sign hsign hf
    refine Grammar.Within.map cu32Grammar_within fun v bs hv => ?_
    have := length_toString_nat (n := v) (k := 9) (by decide) (by omega)
    rw [hf, String.length_append]
    omega
  unfold bodyGrammar
  cases hprimitive : SigType.primitive? byte with
  | some primitive =>
      refine Grammar.Within.of_each (Grammar.Each.pure ?_)
      have := SigType.own_primitive hprimitive
      omega
  | none =>
      refine Grammar.Within.ite ((hT seen).modified 1 (by decide) fun _ _ => rfl) ?_
      refine Grammar.Within.ite ((hT seen).wrap 1 (by decide) fun _ => rfl) ?_
      -- the keyword in front of a token, and the sign in front of an index
      refine Grammar.Within.ite (htoken 10 (by decide) fun _ => rfl) ?_
      refine Grammar.Within.ite (htoken 6 (by decide) fun _ => rfl) ?_
      refine Grammar.Within.ite (hindex "!" (by decide) fun _ => rfl) ?_
      refine Grammar.Within.ite (hindex "!!" (by decide) fun _ => rfl) ?_
      refine Grammar.Within.ite ((hT seen).modified 2 (by decide) fun _ _ => rfl) ?_
      refine Grammar.Within.ite ?_ ?_
      · refine Grammar.Within.bind (hT seen) fun element bs helement =>
          Grammar.Within.map arrayShapeGrammar_within fun shape cs hshape => ?_
        show element.outline.own + (shapeString shape).length + 2 ≤ _
        rw [cost_append]
        omega
      refine Grammar.Within.ite ?_ ?_
      · refine Grammar.Within.bind (Grammar.Within.of_each (Grammar.Each.trivial _))
          fun isValueType bs _ => Grammar.Within.bind
            (Grammar.Within.of_each (Grammar.Each.trivial _)) fun definition cs _ =>
              Grammar.Within.map (countedGrammar_types (hT seen)) fun args ds hargs => ?_
        have hkeyword : (Names.typeKeyword isValueType ++ " ").length ≤ 10 := by
          cases isValueType <;> decide
        show (Names.typeKeyword isValueType ++ " ").length + 0 + 1 +
          (Outline.joined ", " (SigType.outlines args)).own + 1 + 2 ≤ _
        rw [cost_append, cost_append]
        omega
      refine Grammar.Within.ite (Grammar.Within.map (hM seen) fun sig bs hsig => ?_) ?_
      · show 7 + (sig.outline "").own + 2 ≤ _
        omega
      exact Grammar.Within.ite (Grammar.Within.guard
        ((hT true).wrap 7 (by decide) fun _ => rfl))
        (Grammar.Within.of_each (Grammar.Each.none _))

theorem typeInnerGrammar_weight (hT : ∀ seen, TypeFits N (T seen))
    (hM : ∀ seen, MethodFits N (M seen)) (seen : Bool) :
    TypeFits N (typeInnerGrammar limit T M seen) := by
  refine Grammar.Within.ahead fun leading cs next hmods => Grammar.Within.ite ?_ ?_
  · refine Grammar.Within.bind (within_of_nonempty byteGrammar_nonempty) fun byte ds hbyte =>
      (bodyGrammar_weight hT hM seen byte).mono fun ty es hty => ?_
    rw [cost_append, cost_append]
    omega
  · refine Grammar.Within.map (hT seen) fun ty ds hty => ?_
    have := own_outlineAll (N := N) hmods.1
    show ty.outline.own + (CustomMod.outlineAll leading).own + 0 + 2 ≤ _
    rw [cost_append]
    omega

/-! ## Method signatures -/

theorem paramGrammar_weight {R : Grammar SigType} (h : TypeFits N R) :
    (paramGrammar limit R).Within N fun p bs => p.outline.own + 2 ≤ cost N bs := by
  refine Grammar.Within.ahead fun mods cs next hmods =>
    Grammar.Within.ahead fun byRef ds next' htaken => Grammar.Within.map h fun ty es hty => ?_
  have hown := own_outlineAll (N := N) hmods.1
  have hbyRef : (if byRef then "&" else "").length ≤ cost N ds := by
    rcases htaken with ⟨rfl, rfl⟩ | ⟨rfl, _, _⟩
    · exact Nat.le_trans (by decide) (le_cost [ElementType.byRef])
    · exact Nat.zero_le _
  show ty.outline.own + (if byRef then "&" else "").length +
    (CustomMod.outlineAll mods).own + 2 ≤ _
  rw [cost_append, cost_append]
  omega

/-- The parameters of both lists, with what separates them. -/
theorem methodParamsGrammar_weight {R : Grammar Param}
    (h : R.Within N fun p bs => p.outline.own + 2 ≤ cost N bs) : ∀ count past,
    (methodParamsGrammar R count past).Within N fun lists bs =>
      (lists.1.map fun p => p.outline.own + 2).sum +
        (lists.2.map fun p => p.outline.own + 2).sum ≤ cost N bs
  | 0, _ => Grammar.Within.of_each (Grammar.Each.pure (Nat.zero_le _))
  | count + 1, _ => by
      refine Grammar.Within.ahead fun past cs _ _ => Grammar.Within.bind h fun first ds hfirst =>
        Grammar.Within.map (methodParamsGrammar_weight h count past) fun lists es hlists => ?_
      rw [cost_append, cost_append]
      cases past with
      | false =>
          simp only [Bool.false_eq_true, if_false, List.map_cons, List.sum_cons]
          omega
      | true =>
          simp only [if_true, List.map_cons, List.sum_cons]
          omega

theorem MethodSig.length_prefixWords (sig : MethodSig) : sig.prefixWords.length ≤ 37 := by
  have hthis : (if sig.hasThis then "instance " else "").length ≤ 9 := by
    cases sig.hasThis <;> decide
  have hexplicit : (if sig.explicitThis then "explicit " else "").length ≤ 9 := by
    cases sig.explicitThis <;> decide
  have hkeyword : sig.callingConvention.keyword.length ≤ 19 := by
    cases sig.callingConvention with
    | generic count => exact Nat.zero_le _
    | _ => decide
  rw [prefixWords, String.length_append, String.length_append]
  omega

theorem CallConv.length_suffix {conv : CallConv}
    (h : ∀ count, conv = .generic count → count < 2 ^ 29) : conv.suffix.length ≤ 11 := by
  cases conv with
  | generic count =>
      have hcount := h count rfl
      have := length_toString_nat (n := count) (k := 9) (by decide) (by omega)
      show ("<" ++ toString count ++ ">").length ≤ 11
      rw [String.length_append, String.length_append]
      exact Nat.add_le_add_right (Nat.add_le_add_left this 1) 1
  | _ => decide

theorem headerGrammar_within : headerGrammar.Within N fun header bs =>
    32 + N ≤ cost N bs ∧
      ∀ count, header.callingConvention = .generic count → count < 2 ^ 29 := by
  have hcount : ∀ byte : UInt8,
      (if byte &&& CallingConvention.generic ≠ 0 then cu32Grammar else .pure 0).Within N
        fun count _ => count < 2 ^ 29 := fun byte =>
    Grammar.Within.ite (cu32Grammar_within.mono fun _ _ h => h.1)
      (Grammar.Within.of_each (Grammar.Each.pure (by decide)))
  refine Grammar.Within.bind (within_of_nonempty byteGrammar_nonempty) fun byte cs hbyte =>
    Grammar.Within.filterMap (hcount byte) fun count header ds hheader hlt => ?_
  obtain ⟨conv, hconv, rfl⟩ := Option.map_eq_some_iff.mp hheader
  rw [cost_append]
  refine ⟨by omega, ?_⟩
  intro count' hgeneric
  simp only at hgeneric
  rw [hgeneric] at hconv
  unfold CallConv.ofByte? at hconv
  split at hconv
  · split at hconv
    · cases hconv
      exact hlt
    · cases hconv
  all_goals cases hconv

/-- The parts between the parentheses, with an ellipsis in front of the second list. -/
theorem own_parts_le (params varargs : List Param) :
    (Outline.joined ", " (if varargs.isEmpty then Param.outlines params
      else Param.outlines params ++ .text "..." :: Param.outlines varargs)).own ≤
      (params.map fun p => p.outline.own + 2).sum +
        (varargs.map fun p => p.outline.own + 2).sum + 5 := by
  have hsum : ∀ ps : List Param, ((Param.outlines ps).map fun o => o.own + ", ".length).sum =
      (ps.map fun p => p.outline.own + 2).sum := by
    intro ps
    rw [Param.outlines_eq, List.map_map]
    rfl
  refine Nat.le_trans (own_joined_le ", " _) ?_
  cases varargs with
  | nil =>
      show ((Param.outlines params).map fun o => o.own + ", ".length).sum ≤ _
      rw [hsum]
      omega
  | cons p ps =>
      show ((Param.outlines params ++ .text "..." :: Param.outlines (p :: ps)).map
        fun o => o.own + ", ".length).sum ≤ _
      rw [List.map_append, List.sum_append, hsum, List.map_cons, List.sum_cons, hsum]
      have hdots : (Outline.text "...").own + ", ".length = 5 := rfl
      omega

theorem methodInnerGrammar_weight {R : Grammar Param}
    (h : R.Within N fun p bs => p.outline.own + 2 ≤ cost N bs) :
    MethodFits N (methodInnerGrammar R) := by
  refine Grammar.Within.sourced (Q := fun sig bs => (sig.outline "").own + 2 ≤ cost N bs) ?_ ?_
  · refine Grammar.Within.bind headerGrammar_within fun header bs hheader =>
      Grammar.Within.bind cu32Grammar_within fun count cs hcount =>
        Grammar.Within.bind h fun returnType ds hreturn =>
          Grammar.Within.map (methodParamsGrammar_weight h count false) fun lists es hlists => ?_
    have hprefix := MethodSig.length_prefixWords
      ⟨[], header.callingConvention, header.hasThis, header.explicitThis, returnType, lists.1,
        lists.2⟩
    have hsuffix := CallConv.length_suffix hheader.2
    have hparts : (Outline.joined ", " (if lists.2.isEmpty then Param.outlines lists.1
        else Param.outlines lists.1 ++ .text "..." :: Param.outlines lists.2)).own ≤
        (lists.1.map fun p => p.outline.own + 2).sum +
          (lists.2.map fun p => p.outline.own + 2).sum + 5 := own_parts_le lists.1 lists.2
    show (MethodSig.prefixWords ⟨[], header.callingConvention, header.hasThis,
      header.explicitThis, returnType, lists.1, lists.2⟩).length + returnType.outline.own +
      (" " ++ "" ++ header.callingConvention.suffix ++ "(").length +
      (Outline.joined ", " (if lists.2.isEmpty then Param.outlines lists.1
        else Param.outlines lists.1 ++ .text "..." :: Param.outlines lists.2)).own + 1 + 2 ≤ _
    have hname : (" " ++ "" ++ header.callingConvention.suffix ++ "(").length =
        header.callingConvention.suffix.length + 2 := by
      have hsigns : (" " ++ "").length = 1 ∧ "(".length = 1 := ⟨rfl, rfl⟩
      rw [String.length_append, String.length_append]
      omega
    rw [cost_append, cost_append, cost_append]
    omega
  · intro sig raw hsig
    cases sig
    exact hsig

/-- With `n` levels left, what is read brings in what its bytes may. -/
theorem typeGrammar_weight (limit : Nat) : ∀ n seen,
    TypeFits N (typeGrammar limit n seen) ∧ MethodFits N (methodGrammar limit n seen) := by
  intro n
  induction n with
  | zero =>
      intro seen
      rw [typeGrammar, methodGrammar]
      exact ⟨Grammar.Within.of_each (Grammar.Each.none _),
        Grammar.Within.of_each (Grammar.Each.none _)⟩
  | succ n ih =>
      intro seen
      rw [typeGrammar, methodGrammar]
      exact ⟨typeInnerGrammar_weight (fun s => (ih s).1) (fun s => (ih s).2) seen,
        methodInnerGrammar_weight (paramGrammar_weight (ih seen).1)⟩

/-! ## The signatures that names are rendered from -/

/-- What is read from a blob is spelled within it. -/
theorem within_of_parsed {α : Type} {options : SignatureOptions} {x : Parse α} {R : Grammar α}
    (hx : Accepts (At options.limit 0 false) x R) {blob : List UInt8} {a : α}
    (h : finish (x.run (Parser.new blob options)) = .ok a) {Q : α → List UInt8 → Prop}
    (hQ : R.Within blob.length Q) : ∃ bs, bs.length ≤ blob.length ∧ Q a bs := by
  obtain ⟨p, hrun⟩ := Parser.finish_ok_iff.mp h
  obtain ⟨bs, ms, hrest, _, hR, hfits⟩ := hx.sound _ a p (Parser.new_at blob options) hrun
  have hblob : Cursor.rest (Parser.new blob options) = blob := Parser.rest_new _ _
  have hlength := congrArg List.length hrest
  rw [hblob, List.length_append] at hlength
  exact ⟨bs, by omega, hQ a bs ms _ hR hfits (Nat.le_of_eq hlength.symm)⟩

theorem cost_le {bs : List UInt8} {n : Nat} (hN : N ≤ n) (h : bs.length ≤ n) :
    cost N bs ≤ (32 + n) * n := Nat.mul_le_mul (Nat.add_le_add_left hN 32) h

theorem TypeSpecSig.own_le {blob : List UInt8} {sig : TypeSpecSig} {n : Nat}
    (h : TypeSpecSig.parseWith blob .default = .ok sig) (hblob : blob.length ≤ n) :
    sig.type_.outline.own ≤ (32 + n) * n := by
  have hwithin : (TypeSpecSig.grammar SignatureOptions.default.limit blob).Within blob.length
      fun sig bs => sig.type_.outline.own ≤ cost blob.length bs :=
    Grammar.Within.map (typeGrammar_weight _ _ false).1 fun ty bs hty =>
      Nat.le_trans (Nat.le_add_right _ 2) hty
  obtain ⟨bs, hbs, hown⟩ := within_of_parsed (TypeSpecSig.accepts _ blob) h hwithin
  exact Nat.le_trans hown (cost_le hblob (Nat.le_trans hbs hblob))

theorem MethodSpecSig.own_le {blob : List UInt8} {sig : MethodSpecSig} {n : Nat}
    (h : MethodSpecSig.parseWith blob .default = .ok sig) (hblob : blob.length ≤ n) :
    (Outline.joined ", " (SigType.outlines sig.args)).own ≤ (32 + n) * n := by
  have hwithin : (MethodSpecSig.grammar SignatureOptions.default.limit blob).Within blob.length
      fun sig bs => (Outline.joined ", " (SigType.outlines sig.args)).own ≤
        cost blob.length bs := by
    refine Grammar.Within.bind (Grammar.Within.of_each (Grammar.Each.trivial _)) fun _ cs _ =>
      Grammar.Within.map (countedGrammar_types (typeGrammar_weight _ _ false).1)
        fun args ds hargs => ?_
    rw [cost_append]
    exact Nat.le_add_left_of_le hargs
  obtain ⟨bs, hbs, hown⟩ := within_of_parsed (MethodSpecSig.accepts _ blob) h hwithin
  exact Nat.le_trans hown (cost_le hblob (Nat.le_trans hbs hblob))

end Cildec
