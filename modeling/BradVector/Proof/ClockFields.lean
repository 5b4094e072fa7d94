import BradVector.Bradxonc
import BradVector.Library.Commands
import BradVector.Library.Fields
import Mathlib.Logic.Function.Basic

/-!
# The clock selectors

The source fields lie three bits apart and are three bits wide. The divider fields lie four bits
apart and are eight bits wide: each shares its low nibble with the domain below and its high nibble
with the domain above.
-/

namespace BradVector

open CSem

/-- The domains whose field fits its register. -/
abbrev SourceDomain := { d : Nat // d * 3 + 3 ≤ 32 }
abbrev DividerDomain := { d : Nat // d * 4 + 8 ≤ 32 }

/-- A call of the clock unit. -/
inductive CruCall where
  | setClkSource (domain : SourceDomain) (pllId : Int)
  | setClkDivider (domain : DividerDomain) (divider : Word)

def Cru.next (cru : Cru) : CruCall → Cru
  | .setClkSource d pllId => (cruSetClkSource cru d pllId).2
  | .setClkDivider d divider => (cruSetClkDivider cru d divider).2

/-- What the fields of all domains say. -/
@[ext]
structure ClkFields where
  source : SourceDomain → Int
  divider : DividerDomain → Nat

def Cru.fields (cru : Cru) : ClkFields where
  source d := (cru.clkSel.extractLsb' (d * 3) 3).toNat
  divider d := (cru.clkDiv.extractLsb' (d * 4) 8).toNat

/-- The fields that a call asks for. -/
def ClkFields.ask (f : ClkFields) : CruCall → ClkFields
  | .setClkSource d pllId => { f with source := Function.update f.source d pllId }
  | .setClkDivider d divider =>
      { f with divider := Function.update f.divider d (max 1 (divider.toNat % 256)) }

/-- The word whose low byte is stored for a divider. -/
def clkDividerWord (divider : Word) : Word := if divider < 1 then 1 else divider

/-- A call that writes what it is asked for, and into the bits shared with another domain what they
hold. -/
def CruCall.Clear (cru : Cru) : CruCall → Prop
  | .setClkSource _ pllId => 0 ≤ pllId ∧ pllId < 8
  | .setClkDivider d divider =>
      (divider = 0 ∨ divider.toNat % 256 ≠ 0) ∧
      (0 < d.val → (clkDividerWord divider).extractLsb' 0 4 = cru.clkDiv.extractLsb' (d * 4) 4) ∧
      (d.val < 6 → (clkDividerWord divider).extractLsb' 4 4 = cru.clkDiv.extractLsb' (d * 4 + 4) 4)

section

variable (cru : Cru) (f : ClkFields) (pllId : Int) (divider : Word)

theorem source_setClkSource (d e : SourceDomain) :
    (cru.next (.setClkSource d pllId)).fields.source e =
      ((putField cru.clkSel (d * 3) 3 (BitVec.ofInt 32 pllId)).extractLsb' (e * 3) 3).toNat := rfl

theorem divider_setClkDivider (d e : DividerDomain) :
    (cru.next (.setClkDivider d divider)).fields.divider e =
      ((putField cru.clkDiv (d * 4) 8 (clkDividerWord divider)).extractLsb' (e * 4) 8).toNat := rfl

theorem ask_source (d : SourceDomain) :
    (f.ask (.setClkSource d pllId)).source = Function.update f.source d pllId := rfl

theorem ask_divider (d : DividerDomain) :
    (f.ask (.setClkDivider d divider)).divider =
      Function.update f.divider d (max 1 (divider.toNat % 256)) := rfl

end

theorem SourceDomain.disjoint {d e : SourceDomain} (h : e ≠ d) :
    e.val * 3 + 3 ≤ d.val * 3 ∨ d.val * 3 + 3 ≤ e.val * 3 := by
  have hval : e.val ≠ d.val := fun heq => h (Subtype.ext heq)
  omega

theorem ofInt_field (pllId : Int) :
    (((BitVec.ofInt 32 pllId).extractLsb' 0 3).toNat : Int) = pllId % 8 := by
  rw [BitVec.extractLsb'_toNat, Nat.shiftRight_zero, BitVec.toNat_ofInt]
  omega

theorem setClkSource_fields_iff (cru : Cru) (d : SourceDomain) (pllId : Int) :
    (cru.next (.setClkSource d pllId)).fields = cru.fields.ask (.setClkSource d pllId) ↔
      CruCall.Clear cru (.setClkSource d pllId) := by
  have hown : (cru.next (.setClkSource d pllId)).fields.source d = pllId % 8 := by
    rw [source_setClkSource, extractLsb'_putField d.property, ofInt_field]
  constructor
  · intro h
    rw [h, ask_source, Function.update_self] at hown
    rw [CruCall.Clear]
    omega
  · rintro ⟨hnonneg, hlt⟩
    ext e
    · by_cases he : e = d
      · rw [he, hown, ask_source, Function.update_self]
        omega
      · rw [source_setClkSource, ask_source, Function.update_of_ne he,
          extractLsb'_putField_of_disjoint d.property (SourceDomain.disjoint he)]
        rfl
    · rfl

theorem clkDividerWord_byte_iff (divider : Word) :
    ((clkDividerWord divider).extractLsb' 0 8).toNat = max 1 (divider.toNat % 256) ↔
      divider = 0 ∨ divider.toNat % 256 ≠ 0 := by
  rw [BitVec.extractLsb'_toNat, Nat.shiftRight_zero, clkDividerWord, ← BitVec.toNat_inj]
  by_cases hzero : divider < 1
  · have hval : divider.toNat = 0 := by
      rw [BitVec.lt_def] at hzero
      exact Nat.lt_one_iff.mp hzero
    rw [if_pos hzero]
    exact iff_of_true (by rw [hval]; rfl) (.inl hval)
  · rw [if_neg hzero]
    have hpos : divider.toNat ≠ (0 : Word).toNat := by
      intro h
      apply hzero
      rw [BitVec.lt_def, h]
      decide
    omega

section

variable {reg v : Word} {d : DividerDomain}

/-- The neighbours are the only other domains whose bits a divider shares. -/
theorem dividers_kept_iff :
    (∀ e : DividerDomain, e ≠ d →
      (putField reg (d * 4) 8 v).extractLsb' (e * 4) 8 = reg.extractLsb' (e * 4) 8) ↔
    (0 < d.val → v.extractLsb' 0 4 = reg.extractLsb' (d * 4) 4) ∧
      (d.val < 6 → v.extractLsb' 4 4 = reg.extractLsb' (d * 4 + 4) 4) := by
  have hfits : d.val * 4 + 8 ≤ 32 := d.property
  have hbelow : ∀ e : DividerDomain, e.val + 1 = d.val →
      ((putField reg (d * 4) 8 v).extractLsb' (e * 4) 8 = reg.extractLsb' (e * 4) 8 ↔
        v.extractLsb' 0 4 = reg.extractLsb' (d * 4) 4) := by
    intro e he
    exact extractLsb'_putField_below_iff reg v hfits (by omega) (by omega) (by omega)
  have habove : ∀ e : DividerDomain, e.val = d.val + 1 →
      ((putField reg (d * 4) 8 v).extractLsb' (e * 4) 8 = reg.extractLsb' (e * 4) 8 ↔
        v.extractLsb' 4 4 = reg.extractLsb' (d * 4 + 4) 4) := by
    intro e he
    have hpos : e.val * 4 = d.val * 4 + 4 := by omega
    rw [hpos]
    exact extractLsb'_putField_above_iff reg v hfits (by omega) (by omega) (by omega)
  constructor
  · intro h
    constructor
    · intro hpos
      have hprev : d.val - 1 + 1 = d.val := by omega
      refine (hbelow ⟨d.val - 1, by omega⟩ hprev).mp (h _ ?_)
      intro heq
      have hval : d.val - 1 = d.val := congrArg Subtype.val heq
      omega
    · intro hlt
      refine (habove ⟨d.val + 1, by omega⟩ rfl).mp (h _ ?_)
      intro heq
      exact Nat.succ_ne_self d.val (congrArg Subtype.val heq)
  · rintro ⟨hlow, hhigh⟩ e he
    have hne : e.val ≠ d.val := fun heq => he (Subtype.ext heq)
    have heval : e.val * 4 + 8 ≤ 32 := e.property
    by_cases hprev : e.val + 1 = d.val
    · exact (hbelow e hprev).mpr (hlow (by omega))
    by_cases hnext : e.val = d.val + 1
    · exact (habove e hnext).mpr (hhigh (by omega))
    · exact extractLsb'_putField_of_disjoint hfits (by omega)

end

theorem setClkDivider_fields_iff (cru : Cru) (d : DividerDomain) (divider : Word) :
    (cru.next (.setClkDivider d divider)).fields = cru.fields.ask (.setClkDivider d divider) ↔
      CruCall.Clear cru (.setClkDivider d divider) := by
  have hown : (cru.next (.setClkDivider d divider)).fields.divider d =
      ((clkDividerWord divider).extractLsb' 0 8).toNat := by
    rw [divider_setClkDivider, extractLsb'_putField d.property]
  rw [CruCall.Clear, ← clkDividerWord_byte_iff, ← hown, ← dividers_kept_iff]
  constructor
  · intro h
    have hdivider : ∀ e, _ := congrFun (congrArg ClkFields.divider h)
    refine ⟨?_, fun e he => ?_⟩
    · rw [hdivider, ask_divider, Function.update_self]
    · apply BitVec.eq_of_toNat_eq
      rw [← divider_setClkDivider, hdivider, ask_divider, Function.update_of_ne he]
      rfl
  · rintro ⟨hdivider, hkept⟩
    ext e
    · rfl
    · by_cases he : e = d
      · rw [he, hdivider, ask_divider, Function.update_self]
      · rw [divider_setClkDivider, hkept e he, ask_divider, Function.update_of_ne he]
        rfl

theorem cru_fields_follow_iff (cru : Cru) (calls : List CruCall) :
    (∀ before, before <+: calls → (before.foldl Cru.next cru).fields =
      before.foldl ClkFields.ask cru.fields) ↔
      Throughout Cru.next CruCall.Clear cru calls := by
  rw [view_follows_iff]
  apply throughout_iff (throughout_of_forall (P := fun _ => True) fun _ _ => trivial)
    (I := fun _ => True) trivial
  · intro cru call _ _
    cases call with
    | setClkSource d pllId => exact setClkSource_fields_iff cru d pllId
    | setClkDivider d divider => exact setClkDivider_fields_iff cru d divider
  · exact fun _ _ _ _ _ => trivial

/-- A source and a divider of `CLK_CPU`, and a source of another domain before them. -/
def cpuClocks : List CruCall :=
  [.setClkSource ⟨2, by decide⟩ 3, .setClkDivider ⟨0, by decide⟩ 4, .setClkSource ⟨0, by decide⟩ 6]

theorem cru_fields_follow_iff_cpu_divider :
    (cpuClocks.foldl Cru.next ⟨0, 0⟩).fields = cpuClocks.foldl ClkFields.ask
      (Cru.fields ⟨0, 0⟩) := by
  apply (cru_fields_follow_iff ⟨0, 0⟩ cpuClocks).mpr ?_ cpuClocks (List.prefix_refl _)
  refine ⟨⟨by decide, by decide⟩, ⟨.inr (by decide), ?_, ?_⟩, ⟨by decide, by decide⟩, trivial⟩
  · exact fun h => absurd h (Nat.lt_irrefl 0)
  · exact fun _ => by decide

/-- Setting the divider of `CLK_FAB` after that of `CLK_CPU` leaves a 33 where 17 was set. -/
theorem cru_dividers_overlap :
    ¬ ∀ (cru : Cru) (calls : List CruCall),
      (calls.foldl Cru.next cru).fields = calls.foldl ClkFields.ask cru.fields := by
  intro h
  have hfields := h ⟨0, 0⟩ [.setClkDivider ⟨0, by decide⟩ 17, .setClkDivider ⟨1, by decide⟩ 2]
  have hfirst := congrArg (fun f => f.divider ⟨0, by decide⟩) hfields
  revert hfirst
  decide

end BradVector
