import BradVector.Library.Digits
import BradVector.WasmPrintf

/-!
# What the formatter prints

The buffer holds the text that has been printed so far, cut off before its last byte. The digits of
a number come out of an array that they fit in, whatever the number is.
-/

namespace BradVector.Wasm

open CSem

/-- Without a fault, and with a result that has the property. -/
def Returns {α : Type} (x : PrintfM α) (Q : α → Prop) : Prop :=
  x.Sat Q (fun _ => False) fun _ => False

theorem Returns.bind {α β : Type} {x : PrintfM α} {f : α → PrintfM β} {Q : α → Prop} {R : β → Prop}
    (hx : Returns x Q) (hf : ∀ a, Q a → Returns (f a) R) : Returns (x.bind f) R :=
  Outcome.Sat.bind hx hf

theorem Returns.mono {α : Type} {x : PrintfM α} {Q R : α → Prop} (hx : Returns x Q)
    (h : ∀ a, Q a → R a) :
    Returns x R :=
  Outcome.Sat.mono hx h (fun _ => id) fun _ => id

/-! ### The buffer -/

/-- What the buffer holds after a text: as much of it as leaves room for the last byte, and what it
held before. -/
structure Wrote (out text : List Byte) (s : OutBuf) : Prop where
  o_eq : s.o = min text.length (out.length - 1)
  rem_eq : s.rem = out.length - s.o
  buf_eq : s.buf = text.take s.o ++ out.drop s.o

section Buffer

variable {out text : List Byte} {s : OutBuf} {c : Byte}

theorem wrote_nil (out : List Byte) : Wrote out [] ⟨out, 0, out.length⟩ :=
  ⟨(Nat.zero_min _).symm, rfl, rfl⟩

theorem Wrote.length_buf (h : Wrote out text s) : s.buf.length = out.length := by
  have ho := h.o_eq
  rw [h.buf_eq, List.length_append, List.length_take, List.length_drop]
  omega

/-- While there is room the whole text is in the buffer. -/
theorem Wrote.o_eq_length (h : Wrote out text s) (hrem : 1 < s.rem) :
    s.o = text.length ∧ text.length + 1 < out.length := by
  have ho := h.o_eq
  have hr := h.rem_eq
  omega

/-- Once there is none, what follows is lost. -/
theorem Wrote.full (h : Wrote out text s) (hrem : ¬ 1 < s.rem) (more : List Byte) :
    Wrote out (text ++ more) s := by
  have ho := h.o_eq
  have hr := h.rem_eq
  refine ⟨?_, hr, ?_⟩
  · rw [List.length_append]
    omega
  · rw [List.take_append_of_le_length (by omega)]
    exact h.buf_eq

theorem Wrote.append (h : Wrote out text s) (hrem : 1 < s.rem) :
    Returns (s.append c) (Wrote out (text ++ [c])) := by
  obtain ⟨ho, hroom⟩ := h.o_eq_length hrem
  have hlt : s.o < s.buf.length := by
    rw [h.length_buf]
    omega
  have hset : s.buf.set s.o c = (text ++ [c]).take (s.o + 1) ++ out.drop (s.o + 1) := by
    have hdrop : out.drop s.o = out[s.o] :: out.drop (s.o + 1) :=
      List.drop_eq_getElem_cons (by omega)
    rw [h.buf_eq, ho, List.take_length, List.set_append_right _ _ le_rfl, Nat.sub_self, ← ho, hdrop,
      List.set_cons_zero, ho, List.take_of_length_le (by simp), List.append_assoc]
    rfl
  unfold OutBuf.append OutBuf.store
  rw [if_pos hlt]
  refine ⟨?_, ?_, hset⟩
  · simp only [List.length_append, List.length_singleton]
    omega
  · have hr := h.rem_eq
    dsimp only
    omega

theorem Wrote.put (h : Wrote out text s) : Returns (s.put c) (Wrote out (text ++ [c])) := by
  unfold OutBuf.put
  split_ifs with hrem
  · exact h.append hrem
  · exact h.full hrem [c]

theorem Wrote.pad (h : Wrote out text s) (lead : Nat) :
    Returns (s.pad c lead) (Wrote out (text ++ List.replicate lead c)) := by
  induction lead generalizing text s with
  | zero =>
      rw [List.replicate_zero, List.append_nil]
      exact h
  | succ lead ih =>
      unfold OutBuf.pad
      split_ifs with hrem
      · refine (h.append hrem).bind fun s' hs' => ?_
        have hrest := ih hs'
        rwa [List.append_assoc] at hrest
      · exact h.full hrem _

theorem Wrote.copy (h : Wrote out text s) (tmp : List Byte) :
    Returns (s.copy tmp) (Wrote out (text ++ tmp)) := by
  induction tmp generalizing text s with
  | nil =>
      rw [List.append_nil]
      exact h
  | cons c tmp ih =>
      unfold OutBuf.copy
      split_ifs with hrem
      · refine (h.append hrem).bind fun s' hs' => ?_
        have hrest := ih hs'
        rwa [List.append_assoc] at hrest
      · exact h.full hrem _

/-- The text of a conversion. -/
def rendered (spec : ConvSpec) (sg : Bool) (tmp : List Byte) : List Byte :=
  let lead := spec.lead sg tmp.length
  (if spec.left then [] else List.replicate lead (if spec.zero && !sg then ch '0' else ch ' ')) ++
    ((if sg then [ch '-'] else []) ++
      (tmp ++ if spec.left then List.replicate lead (ch ' ') else []))

theorem Wrote.emit (h : Wrote out text s) (spec : ConvSpec) (sg : Bool) (tmp : List Byte) :
    Returns (emit spec sg tmp s) (Wrote out (text ++ rendered spec sg tmp)) := by
  obtain ⟨front, hfront⟩ : ∃ front, front =
      if spec.left then [] else
        List.replicate (spec.lead sg tmp.length)
          (if spec.zero && !sg then ch '0' else ch ' ') := ⟨_, rfl⟩
  obtain ⟨back, hback⟩ : ∃ back, back =
      if spec.left then List.replicate (spec.lead sg tmp.length) (ch ' ') else [] := ⟨_, rfl⟩
  obtain ⟨sign, hsign⟩ : ∃ sign, sign = if sg then [ch '-'] else [] := ⟨_, rfl⟩
  have htext : text ++ rendered spec sg tmp = (((text ++ front) ++ sign) ++ tmp) ++ back := by
    unfold rendered
    dsimp only
    rw [← hfront, ← hback, ← hsign]
    simp only [List.append_assoc]
  rw [htext]
  unfold BradVector.Wasm.emit
  dsimp only
  apply Returns.bind (Q := Wrote out (text ++ front))
  · rw [hfront]
    split_ifs
    · rw [List.append_nil]
      exact h
    · exact h.pad _
    · exact h.pad _
  intro s hs
  apply Returns.bind (Q := Wrote out ((text ++ front) ++ sign))
  · rw [hsign]
    split_ifs
    · exact hs.put
    · rw [List.append_nil]
      exact hs
  intro s hs
  apply Returns.bind (hs.copy tmp)
  intro s hs
  rw [hback]
  split_ifs
  · exact hs.pad _
  · rw [List.append_nil]
    exact hs

end Buffer

/-! ### Digits -/

theorem digitValue_digitChar (upper : Bool) : ∀ {d : Nat}, d < 16 →
    digitValue (digitChar upper d) = d := by
  cases upper <;> decide

/-- The digits of `v`, the last one first. -/
structure IsDigits (base v : Nat) (ds : List Byte) : Prop where
  lt : ∀ d ∈ ds, digitValue d < base
  value : digitsValue base ds.reverse = v

section Digits

variable {size : Nat} {base : { b : Nat // 2 ≤ b }} {upper : Bool}

theorem push_returns {b : List Byte} {c : Byte} (h : b.length < size) :
    Returns (push size b c) fun b' => b' = b ++ [c] := by
  unfold push
  rw [if_pos h]
  rfl

theorem load_returns {b : List Byte} {i : Nat} (h : i < b.length) : Returns (load b i) fun c =>
    c = b[i] := by
  unfold load
  rw [List.getElem?_eq_getElem h]
  rfl

/-- A number below the `k`-th power of the base has at most `k` digits. -/
theorem pushDigits_returns (hbase : base.val ≤ 16) {k v : Nat} (hv : v < base.val ^ k)
    {t : List Byte} (ht : t.length + k ≤ size) :
    Returns (pushDigits size base upper v t) fun t' =>
      ∃ ds, t' = t ++ ds ∧ IsDigits base v ds ∧ ds.length ≤ k := by
  induction k generalizing v t with
  | zero =>
      obtain rfl : v = 0 := by simpa using hv
      rw [pushDigits, dif_pos rfl]
      exact ⟨[], (List.append_nil t).symm, ⟨fun d hd => absurd hd List.not_mem_nil, rfl⟩, le_rfl⟩
  | succ k ih =>
      rw [pushDigits]
      split_ifs with hzero
      · subst hzero
        exact ⟨[], (List.append_nil t).symm, ⟨fun d hd => absurd hd List.not_mem_nil, rfl⟩,
          Nat.zero_le _⟩
      · have hpos : 0 < base.val := Nat.lt_of_lt_of_le (by decide) base.2
        have hmod : v % base.val < base.val := Nat.mod_lt _ hpos
        have hdigit := digitValue_digitChar upper (hmod.trans_le hbase)
        have hdiv : v / base.val < base.val ^ k := by
          rw [Nat.div_lt_iff_lt_mul hpos, ← pow_succ]
          exact hv
        refine (push_returns (by omega)).bind ?_
        rintro _ rfl
        have hlen : (t ++ [digitChar upper (v % base)]).length + k ≤ size := by
          rw [List.length_append, List.length_singleton]
          omega
        refine (ih hdiv hlen).mono ?_
        rintro _ ⟨ds, rfl, hds, hk⟩
        refine ⟨digitChar upper (v % base) :: ds, by simp, ⟨?_, ?_⟩, Nat.succ_le_succ hk⟩
        · intro d hd
          rcases List.mem_cons.mp hd with rfl | hd
          · rw [hdigit]
            exact hmod
          · exact hds.lt d hd
        · rw [List.reverse_cons, digitsValue_concat, hds.value, hdigit]
          exact Nat.div_add_mod' v base

theorem digitArray_returns (hbase : base.val ≤ 16) {k v : Nat} (hv : v < base.val ^ k) (hk : 1 ≤ k)
    (hsize : k ≤ size) :
    Returns (digitArray size base upper v) fun t => IsDigits base v t ∧ t ≠ [] ∧ t.length ≤ k := by
  unfold digitArray
  by_cases hzero : v = 0
  · subst hzero
    rw [if_pos rfl]
    refine (push_returns (b := []) (by exact Nat.lt_of_lt_of_le hk hsize)).bind ?_
    rintro _ rfl
    rw [pushDigits, dif_pos rfl]
    refine ⟨⟨?_, digitsValue_zeros 1 []⟩, by simp, hk⟩
    intro d hd
    obtain rfl : d = ch '0' := by simpa using hd
    exact Nat.lt_of_lt_of_le (by decide) base.2
  · rw [if_neg hzero]
    refine (pushDigits_returns hbase hv (t := []) (by simpa using hsize)).mono ?_
    rintro _ ⟨ds, rfl, hds, hlen⟩
    refine ⟨hds, ?_, hlen⟩
    rintro rfl
    exact hzero hds.value.symm

theorem unstack_returns {t : List Byte} {i : Nat} (hi : i ≤ t.length) {b : List Byte}
    (hb : b.length + i ≤ tmpSize) :
    Returns (unstack t i b) fun b' => b' = b ++ (t.take i).reverse := by
  induction i generalizing b with
  | zero => exact (List.append_nil b).symm
  | succ i ih =>
      unfold unstack
      refine (load_returns hi).bind ?_
      rintro _ rfl
      refine (push_returns (by omega)).bind ?_
      rintro _ rfl
      have hlen : (b ++ [t[i]]).length + i ≤ tmpSize := by
        rw [List.length_append, List.length_singleton]
        omega
      refine (ih (by omega) hlen).mono ?_
      rintro _ rfl
      rw [List.take_succ_eq_append_getElem hi, List.reverse_concat, List.append_assoc]
      rfl

/-- The numeral of an unsigned number is in `tmp`. -/
theorem ufmt_returns (v : Word) (hlo : 8 ≤ base.val) (hbase : base.val ≤ 16) :
    Returns (ufmt v base upper) fun tmp =>
      tmp ≠ [] ∧ (∀ d ∈ tmp, digitValue d < base.val) ∧ digitsValue base tmp = v.toNat := by
  have hv : v.toNat < base.val ^ 11 :=
    calc
      v.toNat < 2 ^ 32 := v.isLt
      _ ≤ 8 ^ 11 := by decide
      _ ≤ base.val ^ 11 := Nat.pow_le_pow_left hlo 11
  unfold ufmt
  refine (digitArray_returns hbase hv (by decide) (by decide)).bind ?_
  rintro t ⟨ht, hne, hlen⟩
  have htmp : ([] : List Byte).length + t.length ≤ tmpSize := by
    rw [List.length_nil, Nat.zero_add]
    exact hlen.trans (by decide)
  refine (unstack_returns le_rfl htmp).mono ?_
  rintro _ rfl
  rw [List.take_length, List.nil_append]
  refine ⟨by simpa using hne, fun d hd => ht.lt d (List.mem_reverse.mp hd), ht.value⟩

theorem unstackShort_returns {t : List Byte} {k : Nat} (hk : k ≤ t.length) {b : List Byte} :
    Returns (unstackShort t k b) fun _ => True := by
  induction k generalizing b with
  | zero => trivial
  | succ k ih =>
      unfold unstackShort
      split_ifs with hroom
      · refine (load_returns hk).bind fun c _ => ?_
        refine (push_returns (by omega)).bind fun b _ => ?_
        exact ih (by omega)
      · trivial

theorem pushFraction_returns (fp left d : Nat) {b : List Byte} :
    Returns (pushFraction fp left d b) fun _ => True := by
  induction left generalizing d b with
  | zero => trivial
  | succ left ih =>
      unfold pushFraction
      split_ifs with hroom
      · exact (push_returns (by omega)).bind fun b _ => ih _
      · exact (push_returns (by omega)).bind fun b _ => ih _
      · trivial

/-- `ffmt` stays in its arrays, whatever the number. -/
theorem ffmt_returns {δ : Type} (D : Doubles δ) (v : δ) (prec : Word) :
    Returns (ffmt D v prec) fun _ => True := by
  unfold ffmt
  dsimp only
  have hip : (D.scaled v (max 0 (min 9 prec.toInt)).toNat).toNat / 10 ^
      (max 0 (min 9 prec.toInt)).toNat <
      decimalBase.val ^ 20 :=
    calc
      _ ≤ (D.scaled v (max 0 (min 9 prec.toInt)).toNat).toNat := Nat.div_le_self _ _
      _ < 2 ^ 64 := BitVec.isLt _
      _ ≤ 10 ^ 20 := by decide
  refine (digitArray_returns (by decide) hip (by decide) (by decide)).bind fun t _ => ?_
  refine (unstackShort_returns le_rfl).bind fun b _ => ?_
  apply Returns.bind (Q := fun _ => True)
  · split_ifs with hpoint
    · exact (push_returns (by omega)).mono fun _ _ => trivial
    · trivial
  · intro b _
    exact pushFraction_returns _ _ _

end Digits

/-! ### Formats and their arguments -/

/-- What a piece of a format prints. -/
inductive Item where
  | text (bytes : List Byte)
  | numeral (base : Nat) (v : Int)
  | other

/-- The text is the one meant, or a numeral of the number between blanks, as `strtol` reads it. -/
def Item.Denotes : Item → List Byte → Prop
  | .text bytes, t => t = bytes
  | .numeral base v, t =>
      ∃ blanks, readNumeral t base = (v, List.replicate blanks (ch ' ')) ∧ blanks < t.length
  | .other, _ => True

/-- What a conversion takes of the arguments, if they begin as it needs. -/
def takes {δ : Type} (c : Byte) (args : List (VaArg δ)) : Option (Item × List (VaArg δ)) :=
  if c = ch 'd' ∨ c = ch 'i' then
    match args with
    | .word v :: args => some (.numeral 10 v.toInt, args)
    | _ => none
  else if c = ch 'u' then
    match args with
    | .word v :: args => some (.numeral 10 v.toNat, args)
    | _ => none
  else if c = ch 'x' ∨ c = ch 'X' then
    match args with
    | .word v :: args => some (.numeral 16 v.toNat, args)
    | _ => none
  else if c = ch 'o' then
    match args with
    | .word v :: args => some (.numeral 8 v.toNat, args)
    | _ => none
  else if c = ch 'c' then
    match args with
    | .word _ :: args => some (.other, args)
    | _ => none
  else if c = ch 'f' then
    match args with
    | .double _ :: args => some (.other, args)
    | _ => none
  else if c = ch 's' then
    match args with
    | .string _ :: args => some (.other, args)
    | _ => none
  else some (.text [ch '%', c], args)

/-- A format without a conversion that its end cuts off, the arguments that it needs, and what it
prints. -/
inductive Matches {δ : Type} : List Byte → List (VaArg δ) → List Item → Prop where
  | nil {args : List (VaArg δ)} : Matches [] args []
  | char {c : Byte} {f : List Byte} {args : List (VaArg δ)} {items : List Item} (hc : c ≠ ch '%')
      (h : Matches f args items) : Matches (c :: f) args (.text [c] :: items)
  | percent {f : List Byte} {args : List (VaArg δ)} {items : List Item} (h : Matches f args items) :
      Matches (ch '%' :: ch '%' :: f) args (.text [ch '%'] :: items)
  | conv {c : Byte} {f rest : List Byte} {spec : ConvSpec} {args args' : List (VaArg δ)}
    {item : Item}
      {items : List Item} (hf : f.headD 0 ≠ ch '%') (hspec : parseSpec f = (spec, c :: rest))
      (htakes : takes c args = some (item, args')) (h : Matches rest args' items) :
      Matches (ch '%' :: f) args (item :: items)

/-- A numeral keeps its value in the padding. -/
theorem denotes_rendered {base : Nat} (hpos : 0 < base) (hle : base ≤ 16) {tmp : List Byte}
    (hne : tmp ≠ []) (hdigits : ∀ d ∈ tmp, digitValue d < base) (spec : ConvSpec) (sg : Bool) :
    (Item.numeral base (if sg then -(digitsValue base tmp : Int) else digitsValue base tmp)).Denotes
      (rendered spec sg tmp) := by
  have hlength : 0 < tmp.length := List.length_pos_iff.mpr hne
  unfold rendered
  dsimp only
  by_cases hleft : spec.left = true
  · rw [if_pos hleft, if_pos hleft]
    refine ⟨spec.lead sg tmp.length, readNumeral_blanks hpos hle hne hdigits sg 0 _, ?_⟩
    simp only [List.length_append, List.length_replicate, List.nil_append]
    omega
  · rw [if_neg hleft, if_neg hleft]
    by_cases hzero : (spec.zero && !sg) = true
    · -- the zeros are leading digits
      obtain rfl : sg = false := by simpa using (Bool.and_eq_true_iff.mp hzero).2
      rw [if_pos hzero]
      have hall : ∀ d ∈ List.replicate (spec.lead false tmp.length) (ch '0') ++ tmp,
          digitValue d < base := by
        intro d hd
        rcases List.mem_append.mp hd with hd | hd
        · rw [List.eq_of_mem_replicate hd]
          exact hpos
        · exact hdigits d hd
      have hread := readNumeral_blanks hpos hle (by simp [hne]) hall false 0 0
      rw [digitsValue_zeros] at hread
      refine ⟨0, ?_, by simp only [List.length_append]; omega⟩
      simpa using hread
    · rw [if_neg hzero]
      refine ⟨0, readNumeral_blanks hpos hle hne hdigits sg _ 0, ?_⟩
      simp only [List.length_append]
      omega

theorem toInt_of_slt_zero {v : Word} (h : v.slt 0 = true) : v.toInt = -((-v).toNat : Int) := by
  have hneg : v.toInt < 0 := by simpa [BitVec.slt] using h
  have hv := v.isLt
  rw [BitVec.toInt_eq_toNat_cond] at hneg ⊢
  rw [BitVec.toNat_neg]
  split_ifs at hneg ⊢ with hlt
  · omega
  · omega

theorem toInt_of_not_slt_zero {v : Word} (h : ¬ v.slt 0 = true) : v.toInt = v.toNat := by
  have hnonneg : 0 ≤ v.toInt := by simpa [BitVec.slt] using h
  have hv := v.isLt
  rw [BitVec.toInt_eq_toNat_cond] at hnonneg ⊢
  split_ifs at hnonneg ⊢ with hlt
  · rfl
  · omega

section Conversions

variable {δ : Type} {D : Doubles δ} {spec : ConvSpec} {c : Byte} {args args' : List (VaArg δ)}
  {item : Item}

/-- What a conversion leaves prints what its item means. -/
def Converts (spec : ConvSpec) (c : Byte) (args : List (VaArg δ)) (item : Item)
    (args' : List (VaArg δ)) :
    Option (Bool × List Byte × List (VaArg δ)) → Prop
  | none => item = .text [ch '%', c] ∧ args' = args
  | some (sg, tmp, rest) => rest = args' ∧ item.Denotes (rendered spec sg tmp)

theorem unsigned_returns (v : Word) (base : { b : Nat // 2 ≤ b }) (hlo : 8 ≤ base.val)
    (hbase : base.val ≤ 16) (upper : Bool) :
    Returns ((ufmt v base upper).bind fun tmp => .ok (some (false, tmp, args')))
      (Converts spec c args (.numeral base.val v.toNat) args') := by
  refine (ufmt_returns v hlo hbase).bind ?_
  rintro tmp ⟨hne, hdigits, hvalue⟩
  refine ⟨rfl, ?_⟩
  rw [← hvalue]
  exact denotes_rendered (Nat.lt_of_lt_of_le (by decide) hlo) hbase hne hdigits spec false

theorem signed_returns (v : Word) :
    Returns (if v.slt 0 then (ufmt (-v) decimalBase false).bind fun tmp =>
      .ok (some (true, tmp, args'))
        else (ufmt v decimalBase false).bind fun tmp => .ok (some (false, tmp, args')))
      (Converts spec c args (.numeral 10 v.toInt) args') := by
  split_ifs with hneg
  · refine (ufmt_returns (-v) (by decide) (by decide)).bind ?_
    rintro tmp ⟨hne, hdigits, hvalue⟩
    refine ⟨rfl, ?_⟩
    rw [toInt_of_slt_zero hneg, ← hvalue]
    exact denotes_rendered (by decide) (by decide) hne hdigits spec true
  · rw [toInt_of_not_slt_zero hneg]
    exact unsigned_returns v decimalBase (by decide) (by decide) false

theorem other_returns {x : PrintfM (List Byte)} (sg : Bool) (hx : Returns x fun _ => True) :
    Returns (x.bind fun tmp => .ok (some (sg, tmp, args'))) (Converts spec c args .other args') :=
  hx.bind fun _ _ => ⟨rfl, trivial⟩

theorem foldlM_push_returns {size : Nat} (cs : List Byte) {b : List Byte}
    (h : b.length + cs.length ≤ size) :
    Returns (cs.foldlM (push size) b) fun _ => True := by
  induction cs generalizing b with
  | nil => trivial
  | cons c cs ih =>
      rw [List.length_cons] at h
      rw [List.foldlM_cons]
      refine (push_returns (by omega)).bind ?_
      rintro _ rfl
      apply ih
      rw [List.length_append, List.length_singleton]
      omega

/-- **A conversion** with a fitting argument stores nothing out of its arrays, and what it prints is
what it should. -/
theorem convert_returns (D : Doubles δ) (spec : ConvSpec) (h : takes c args = some (item, args')) :
    Returns (convert D spec c args) (Converts spec c args item args') := by
  unfold takes at h
  unfold convert
  by_cases hd : c = ch 'd' ∨ c = ch 'i'
  · rw [if_pos hd] at h ⊢
    match args, h with
    | .word v :: args, h =>
        cases h
        exact signed_returns v
  rw [if_neg hd] at h ⊢
  by_cases hu : c = ch 'u'
  · rw [if_pos hu] at h ⊢
    match args, h with
    | .word v :: args, h =>
        cases h
        exact unsigned_returns v decimalBase (by decide) (by decide) false
  rw [if_neg hu] at h ⊢
  by_cases hx : c = ch 'x' ∨ c = ch 'X'
  · rw [if_pos hx] at h ⊢
    match args, h with
    | .word v :: args, h =>
        cases h
        exact unsigned_returns v hexBase (by decide) (by decide) _
  rw [if_neg hx] at h ⊢
  by_cases ho : c = ch 'o'
  · rw [if_pos ho] at h ⊢
    match args, h with
    | .word v :: args, h =>
        cases h
        exact unsigned_returns v octalBase (by decide) (by decide) false
  rw [if_neg ho] at h ⊢
  by_cases hc : c = ch 'c'
  · rw [if_pos hc] at h ⊢
    match args, h with
    | .word v :: args, h =>
        cases h
        apply other_returns
        exact (push_returns (by decide)).mono fun _ _ => trivial
  rw [if_neg hc] at h ⊢
  by_cases hf : c = ch 'f'
  · rw [if_pos hf] at h ⊢
    match args, h with
    | .double v :: args, h =>
        cases h
        dsimp only
        split_ifs
        · exact other_returns true (ffmt_returns D (D.neg v) spec.prec)
        · exact other_returns false (ffmt_returns D v spec.prec)
  rw [if_neg hf] at h ⊢
  by_cases hs : c = ch 's'
  · rw [if_pos hs] at h ⊢
    match args, h with
    | .string v :: args, h =>
        cases h
        apply other_returns
        apply foldlM_push_returns
        rw [List.length_nil, Nat.zero_add]
        exact (List.length_take_le _ _).trans (Nat.sub_le _ _)
  rw [if_neg hs] at h ⊢
  cases h
  exact ⟨rfl, rfl⟩

end Conversions

/-! ### The whole output -/

theorem vsnprintfLoop_conv {δ : Type} (D : Doubles δ) {f rest : List Byte} {spec : ConvSpec}
    {c : Byte}
    (hf : f.headD 0 ≠ ch '%') (hspec : parseSpec f = (spec, c :: rest)) (args : List (VaArg δ))
    (s : OutBuf) :
    vsnprintfLoop D (ch '%' :: f) args s =
      (convert D spec c args).bind fun r =>
        match r with
        | none => (s.put (ch '%')).bind fun s => (s.put c).bind (vsnprintfLoop D rest args)
        | some (sg, tmp, args) => (emit spec sg tmp s).bind (vsnprintfLoop D rest args) := by
  rw [vsnprintfLoop, if_neg (not_not_intro rfl), if_neg hf]
  split
  · next heq => cases hspec.symm.trans heq
  · next heq =>
      cases hspec.symm.trans heq
      rfl

/-- Behind a text stands one for each item. -/
def Printed (out text : List Byte) (items : List Item) (s : OutBuf) : Prop :=
  ∃ texts, List.Forall₂ Item.Denotes items texts ∧ Wrote out (text ++ texts.flatten) s

theorem Printed.cons {out text t : List Byte} {item : Item} {items : List Item} {s : OutBuf}
    (h : Printed out (text ++ t) items s) (ht : item.Denotes t) :
      Printed out text (item :: items) s := by
  obtain ⟨texts, htexts, hs⟩ := h
  refine ⟨t :: texts, .cons ht htexts, ?_⟩
  rwa [List.flatten_cons, ← List.append_assoc]

theorem vsnprintfLoop_returns {δ : Type} {D : Doubles δ} {f : List Byte} {args : List (VaArg δ)}
    {items : List Item}
    (h : Matches f args items) {out text : List Byte} {s : OutBuf} (hs : Wrote out text s) :
    Returns (vsnprintfLoop D f args s) (Printed out text items) := by
  induction h generalizing text s with
  | nil =>
      rw [vsnprintfLoop]
      exact ⟨[], .nil, by rwa [List.flatten_nil, List.append_nil]⟩
  | char hc h ih =>
      rw [vsnprintfLoop, if_pos hc]
      refine hs.put.bind fun s hs => ?_
      exact (ih hs).mono fun s' hs' => hs'.cons rfl
  | percent h ih =>
      rw [vsnprintfLoop, if_neg (not_not_intro rfl), if_pos (List.headD_cons)]
      refine hs.put.bind fun s hs => ?_
      exact (ih hs).mono fun s' hs' => hs'.cons rfl
  | conv hf hspec htakes h ih =>
      rw [vsnprintfLoop_conv D hf hspec]
      refine (convert_returns D _ htakes).bind fun r hr => ?_
      cases r with
      | none =>
          obtain ⟨rfl, rfl⟩ := hr
          refine hs.put.bind fun s hs => hs.put.bind fun s hs => ?_
          rw [List.append_assoc] at hs
          exact (ih hs).mono fun s' hs' => hs'.cons rfl
      | some r =>
          obtain ⟨sg, tmp, rest⟩ := r
          obtain ⟨rfl, hdenotes⟩ := hr
          refine (hs.emit _ sg tmp).bind fun s hs => ?_
          exact (ih hs).mono fun s' hs' => hs'.cons hdenotes

/-- **The formatter** stays in its buffer and ends it with a NUL. It prints what each piece of the
format means, cut off only where the room ends. -/
theorem vsnprintf_prints {δ : Type} (D : Doubles δ) {out fmt : List Byte} {args : List (VaArg δ)}
    {items : List Item} (hsz : 0 < out.length) (h : Matches fmt args items) :
    ∃ buf n texts, vsnprintf D out fmt args = .ok (buf, n) ∧ buf.length = out.length ∧
      n < out.length ∧
      buf[n]? = some 0 ∧ List.Forall₂ Item.Denotes items texts ∧
      n = min texts.flatten.length (out.length - 1) ∧ buf.take n = texts.flatten.take n ∧
      buf.drop (n + 1) = out.drop (n + 1) := by
  obtain ⟨s, hloop, texts, htexts, hs⟩ :=
    (vsnprintfLoop_returns (D := D) h (wrote_nil out)).exists_ok
  rw [List.nil_append] at hs
  have ho := hs.o_eq
  have hrem := hs.rem_eq
  have hlength := hs.length_buf
  have hroom : s.o < s.buf.length := by omega
  have hbuf : (texts.flatten.take s.o).length = s.o := by
    rw [List.length_take]
    omega
  refine ⟨s.buf.set s.o 0, s.o, texts, ?_, ?_, ?_, ?_, htexts, ho, ?_, ?_⟩
  · unfold vsnprintf
    rw [if_neg hsz.ne', hloop]
    change ((if 0 < s.rem then s.store s.o 0 else s.store (out.length - 1) 0).bind fun buf =>
      (.ok (buf, s.o) : PrintfM _)) = _
    rw [if_pos (by omega), OutBuf.store, if_pos hroom]
    rfl
  · rw [List.length_set, hlength]
  · omega
  · rw [List.getElem?_set_self hroom]
  · rw [List.take_set_of_le le_rfl, hs.buf_eq, List.take_left' hbuf]
  · rw [List.drop_set_of_lt (Nat.lt_succ_self _), hs.buf_eq]
    calc
      (texts.flatten.take s.o ++ out.drop s.o).drop (s.o + 1) =
          ((texts.flatten.take s.o ++ out.drop s.o).drop s.o).drop 1 := List.drop_drop.symm
      _ = (out.drop s.o).drop 1 := by rw [List.drop_left' hbuf]
      _ = out.drop (s.o + 1) := List.drop_drop

/-- `double` arithmetic without rounding. -/
def exactDoubles : Doubles Rat where
  negative v := v < 0
  neg v := -v
  scaled v prec := BitVec.ofInt 64 (v * 10 ^ prec + 1 / 2).floor

/-- The least `int` and 255 under `"%d %5x"`. -/
theorem vsnprintf_prints_least_int :
    ∃ buf n texts, vsnprintf exactDoubles (List.replicate 24 0)
    [ch '%', ch 'd', ch ' ', ch '%', ch '5', ch 'x']
        [.word 0x80000000, .word 255] = .ok (buf, n) ∧ buf.length = 24 ∧ n < 24 ∧ buf[n]? = some 0 ∧
      List.Forall₂ Item.Denotes [.numeral 10 (-2147483648), .text [ch ' '], .numeral 16 255] texts ∧
      n = min texts.flatten.length 23 ∧ buf.take n = texts.flatten.take n ∧
      buf.drop (n + 1) = (List.replicate 24 0).drop (n + 1) :=
  vsnprintf_prints exactDoubles (by decide)
    (.conv (by decide) rfl rfl (.char (by decide) (.conv (by decide) rfl rfl .nil)))

end BradVector.Wasm
