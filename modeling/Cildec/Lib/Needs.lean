import Cildec.Lib.Grammar

/-!
# Spellings within so many bytes

The marks of a spelling say how many bytes it asks for. `Within N R Q` says that `Q` holds of
every value of `R` and its bytes, where the spelling and what follows it are at most `N` bytes
and the marks have room in them. The rules are those of `Each`, with one more for the mark
itself.
-/

namespace Wire

namespace Grammar

variable {α β : Type} {N : Nat} {Q : α → List UInt8 → Prop} {Q' : β → List UInt8 → Prop}

/-- `Q` holds of every value that is spelled, with room for its marks, within `N` bytes. -/
def Within (N : Nat) (R : Grammar α) (Q : α → List UInt8 → Prop) : Prop :=
  ∀ a bs ms t, R a bs ms → Fits t ms → bs.length + t ≤ N → Q a bs

theorem Within.of_each {R : Grammar α} (h : R.Each Q) : R.Within N Q :=
  fun a bs ms _ hR _ _ => h a bs ms hR

theorem Within.mono {R : Grammar α} {P : α → List UInt8 → Prop} (hR : R.Within N Q)
    (h : ∀ a bs, Q a bs → P a bs) : R.Within N P :=
  fun a bs ms t hspell hfits hle => h a bs (hR a bs ms t hspell hfits hle)

theorem Within.bind {R : Grammar α} {S : α → Grammar β} (hR : R.Within N Q)
    (hS : ∀ a cs, Q a cs → (S a).Within N fun b ds => Q' b (cs ++ ds)) :
    (R.bind S).Within N Q' := by
  rintro b bs ms t ⟨a, cs, ds, ks, ns, hcs, hds, rfl, rfl⟩ hfits hle
  obtain ⟨hks, hns⟩ := fits_append.mp hfits
  rw [List.length_append] at hle
  have ha := hR a cs ks (ds.length + t) hcs (fits_shift.mp hks) (by omega)
  exact hS a cs ha b ds ns t hds hns (by omega)

theorem Within.map {R : Grammar α} {f : α → β} (hR : R.Within N Q)
    (hf : ∀ a bs, Q a bs → Q' (f a) bs) : (R.map f).Within N Q' := by
  rintro b bs ms t ⟨a, rfl, h⟩ hfits hle
  exact hf a bs (hR a bs ms t h hfits hle)

theorem Within.filterMap {R : Grammar α} {f : α → Option β} (hR : R.Within N Q)
    (hf : ∀ a b bs, f a = some b → Q a bs → Q' b bs) : (R.filterMap f).Within N Q' := by
  rintro b bs ms t ⟨a, hab, h⟩ hfits hle
  exact hf a b bs hab (hR a bs ms t h hfits hle)

theorem Within.sourced {R : Grammar α} {f : List UInt8 → α → β} (hR : R.Within N Q)
    (hf : ∀ a bs, Q a bs → Q' (f bs a) bs) : (R.sourced f).Within N Q' := by
  rintro b bs ms t ⟨a, rfl, h⟩ hfits hle
  exact hf a bs (hR a bs ms t h hfits hle)

theorem Within.guard {c : Prop} {R : Grammar α} (hR : R.Within N Q) :
    (R.guard c).Within N Q := fun a bs ms t h => hR a bs ms t h.2

/-- A mark asks for no more than there is. -/
theorem Within.need {n : Nat} {R : Grammar α} (hR : n ≤ N → R.Within N Q) :
    (R.need n).Within N Q := by
  rintro a bs ms t ⟨ns, h, rfl⟩ hfits hle
  obtain ⟨hn, hns⟩ := List.forall_mem_cons.mp hfits
  exact hR (Nat.le_trans hn hle) a bs ns t h hns hle

/-- What is looked ahead from may say something about its value and bytes. -/
theorem Within.ahead {R : α → List UInt8 → Option UInt8 → Prop} {S : α → Grammar β}
    (hS : ∀ a cs next, R a cs next → (S a).Within N fun b ds => Q' b (cs ++ ds)) :
    (Grammar.ahead R S).Within N Q' := by
  rintro b bs ms t ⟨a, cs, ds, hcs, hds, rfl⟩ hfits hle
  rw [List.length_append] at hle
  exact hS a cs ds.head? hcs b ds ms t hds hfits (by omega)

theorem Within.ite {c : Prop} [Decidable c] {R S : Grammar α} (hR : R.Within N Q)
    (hS : S.Within N Q) : (if c then R else S).Within N Q := by
  by_cases h : c
  · rw [if_pos h]
    exact hR
  · rw [if_neg h]
    exact hS

end Grammar

end Wire
