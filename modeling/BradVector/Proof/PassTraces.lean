import BradVector.Proof.Passes

/-!
# The passes in lockstep

The passes of an accepted source come to the same lines in the same states, and the kernels have as
many words as the first pass counts.
-/

namespace BradVector

open CSem

inductive LineClass where
  | directive | label | insn | blank | endOfText
  deriving DecidableEq, Repr

def lineClass (lx : Lexer) : LineClass :=
  match lx.t.kind with
  | .eof => .endOfText
  | .nl => .blank
  | _ =>
      match peekLine lx with
      | .dir => .directive
      | .label => .label
      | .insn => .insn

/-- The lexer and the state at the start of every line that `lineLoop` comes to, blank ones and the
end of the text included. -/
def lineTrace {σ : Type} (body : Lexer → σ → AsmResult (Lexer × σ)) : Nat → Lexer → σ →
    List (Lexer × σ)
  | 0, _, _ => []
  | fuel + 1, lx, s =>
      (lx, s) ::
        match lx.t.kind with
        | .eof => []
        | .nl => lineTrace body fuel (lexTake lx) s
        | _ =>
            match body lx s with
            | .error _ => []
            | .ok (lx', s') => lineTrace body fuel (skipLine lx') s'

def pass1Trace (source : List Byte) (img : BvbcImage) : List (Lexer × BradcAsm) :=
  lineTrace pass1Line (passFuel source) (lexTake (lxInit source)) (pass1Start img)

def pass2Trace (source : List Byte) (img : BvbcImage) : List (Lexer × BradcAsm) :=
  match lineLoop pass1Line (passFuel source) (lexTake (lxInit source)) (pass1Start img) with
  | .error _ => []
  | .ok a => lineTrace pass2Line (passFuel source) (lexTake (lxInit source)) (pass2Start a)

/-- The cursor and the token, how the line is classified, the flag and the counter. -/
def lineView (x : Lexer × BradcAsm) : Lexer × LineClass × Bool × Nat :=
  (x.1, lineClass x.1, x.2.inKernel, x.2.kpc)

/-- What the counter stands at where a kernel ends. -/
def kernelCounts (trace : List (Lexer × BradcAsm)) : List Nat :=
  trace.filterMap fun x => if lineKind x.1 = .endKernel then some x.2.kpc else none

/-- The number of words of every kernel, from its entry to the next one or to the end. -/
def kernelSizes (ninsn : Nat) : List BvbcKernel → List Nat
  | [] => []
  | [k] => [ninsn - k.entry.toNat]
  | k :: k' :: ks => (k'.entry.toNat - k.entry.toNat) :: kernelSizes ninsn (k' :: ks)

section LineTrace

variable {σ : Type} {body : Lexer → σ → AsmResult (Lexer × σ)} {fuel : Nat} {lx lx' : Lexer}
  {s s' : σ}

theorem lineTrace_of_eof (h : lx.t.kind = .eof) : lineTrace body (fuel + 1) lx s = [(lx, s)] := by
  simp [lineTrace, h]

theorem lineTrace_of_nl (h : lx.t.kind = .nl) :
    lineTrace body (fuel + 1) lx s = (lx, s) :: lineTrace body fuel (lexTake lx) s := by
  simp [lineTrace, h]

theorem lineTrace_of_line (h : ¬ lx.AtLineEnd) (hbody : body lx s = .ok (lx', s')) :
    lineTrace body (fuel + 1) lx s = (lx, s) :: lineTrace body fuel (skipLine lx') s' := by
  obtain ⟨hnl, heof⟩ := not_or.mp h
  rw [lineTrace]
  split
  · exact absurd ‹_› heof
  · exact absurd ‹_› hnl
  · rw [hbody]

end LineTrace

/-! ### Lockstep -/

section Trace

variable {fuel : Nat} {lx lx' : Lexer} {a a' b : BradcAsm}

/-- A line of a loop that is not blank. -/
theorem lineLoop_ok_of_line {σ : Type} {body : Lexer → σ → AsmResult (Lexer × σ)} {s t : σ}
    (hline : ¬ lx.AtLineEnd) (hok : lineLoop body (fuel + 1) lx s = .ok t) :
    ∃ lx' s', body lx s = .ok (lx', s') ∧ lineLoop body fuel (skipLine lx') s' = .ok t := by
  obtain ⟨hnl, heof⟩ := not_or.mp hline
  rw [lineLoop] at hok
  split at hok
  · exact absurd ‹_› heof
  · exact absurd ‹_› hnl
  · cases hbody : body lx s with
    | error e =>
        rw [hbody] at hok
        cases hok
    | ok r =>
        rw [hbody] at hok
        exact ⟨r.1, r.2, rfl, hok⟩

/-- Started alike, the first pass comes to the lines the second one comes to. -/
theorem traces_agree {p : Pos} {a₁ a₂ b₂ : BradcAsm} (h₁ : a₁.AtPos p) (h₂ : a₂.AtPos p)
    (hok : lineLoop pass2Line fuel lx a₂ = .ok b₂) :
    (lineTrace pass1Line fuel lx a₁).map lineView =
      (lineTrace pass2Line fuel lx a₂).map lineView := by
  induction fuel generalizing lx p a₁ a₂ with
  | zero => rfl
  | succ fuel ih =>
      have hhead : lineView (lx, a₁) = lineView (lx, a₂) := by
        unfold lineView
        rw [h₁.1, h₁.2, h₂.1, h₂.2]
      by_cases heof : lx.t.kind = .eof
      · rw [lineTrace_of_eof heof, lineTrace_of_eof heof, List.map_cons, List.map_cons, hhead]
      by_cases hnl : lx.t.kind = .nl
      · have hrest : lineLoop pass2Line fuel (lexTake lx) a₂ = .ok b₂ := by
          rw [lineLoop, hnl] at hok
          exact hok
        rw [lineTrace_of_nl hnl, lineTrace_of_nl hnl, List.map_cons, List.map_cons, hhead,
          ih h₁ h₂ hrest]
      have hline : ¬ lx.AtLineEnd := not_or.mpr ⟨hnl, heof⟩
      obtain ⟨⟨lx₁, a₁'⟩, hbody₁⟩ := pass1Line_ok lx a₁
      obtain ⟨lx₂, a₂', hbody₂, hrest⟩ := lineLoop_ok_of_line hline hok
      rw [pass2Line_skipLine hline hbody₂] at hrest
      rw [lineTrace_of_line hline hbody₁, lineTrace_of_line hline hbody₂,
        pass1Line_skipLine hline hbody₁, pass2Line_skipLine hline hbody₂, List.map_cons,
        List.map_cons, hhead, ih (pass1Line_atPos h₁ hbody₁).1 (pass2Line_atPos h₂ hbody₂) hrest]

/-- With enough fuel the first pass comes to the end of the text. -/
theorem lineTrace_ends (a : BradcAsm) (hroom : lx.room < fuel) :
    ∃ x ∈ (lineTrace pass1Line fuel lx a).getLast?, x.1.t.kind = .eof := by
  induction fuel generalizing lx a with
  | zero => exact absurd hroom (Nat.not_lt_zero _)
  | succ fuel ih =>
      have hcons {l : List (Lexer × BradcAsm)} (h : ∃ x ∈ l.getLast?, x.1.t.kind = .eof) :
          ∃ x ∈ ((lx, a) :: l).getLast?, x.1.t.kind = .eof := by
        obtain ⟨x, hx, hkind⟩ := h
        refine ⟨x, ?_, hkind⟩
        rw [List.getLast?_cons, Option.mem_def.mp hx]
        rfl
      by_cases heof : lx.t.kind = .eof
      · rw [lineTrace_of_eof heof]
        exact ⟨_, rfl, heof⟩
      by_cases hnl : lx.t.kind = .nl
      · have hlt := lexTake_room_lt heof
        rw [lineTrace_of_nl hnl]
        exact hcons (ih a (by omega))
      have hline : ¬ lx.AtLineEnd := not_or.mpr ⟨hnl, heof⟩
      obtain ⟨⟨lx', a'⟩, hbody⟩ := pass1Line_ok lx a
      have hlt := skipLine_room_lt heof
      rw [lineTrace_of_line hline hbody, pass1Line_skipLine hline hbody]
      exact hcons (ih a' (by omega))

/-! ### The sizes of the kernels -/

theorem kernelSizes_concat (ninsn : Nat) (ks : List BvbcKernel) (k : BvbcKernel) :
    kernelSizes ninsn (ks ++ [k]) = kernelSizes k.entry.toNat ks ++ [ninsn - k.entry.toNat] := by
  induction ks with
  | nil => rfl
  | cons k₀ ks ih =>
      cases ks with
      | nil => rfl
      | cons k₁ ks =>
          simp only [List.cons_append, kernelSizes] at ih ⊢
          rw [ih]

/-- The kernels that have ended have as many words as `counts` says, and the current one as many as
the counter does. -/
structure Sized (a : BradcAsm) (counts : List Nat) : Prop where
  bound : a.img.ninsn ≤ bvbcMaxInsn
  outside : a.inKernel = false → kernelSizes a.img.ninsn a.img.kernels = counts
  inside : a.inKernel = true → ∃ ks k, a.img.kernels = ks ++ [k] ∧
    k.entry.toNat + a.kpc = a.img.ninsn ∧ kernelSizes k.entry.toNat ks = counts

theorem kernelCounts_cons (x : Lexer × BradcAsm) (trace : List (Lexer × BradcAsm)) :
    kernelCounts (x :: trace) =
      (if lineKind x.1 = .endKernel then [x.2.kpc] else []) ++ kernelCounts trace := by
  unfold kernelCounts
  rw [List.filterMap_cons]
  by_cases hend : lineKind x.1 = .endKernel
  · rw [if_pos hend, if_pos hend]
    rfl
  · rw [if_neg hend, if_neg hend]
    rfl

/-- The counts only depend on what the traces agree on. -/
theorem kernelCounts_of_view (trace : List (Lexer × BradcAsm)) :
    kernelCounts trace = (trace.map lineView).filterMap
      fun v => if lineKind v.1 = .endKernel then some v.2.2.2 else none := by
  rw [List.filterMap_map]
  rfl

theorem lineKind_of_lineEnd (h : lx.AtLineEnd) : lineKind lx = .insn := by
  unfold lineKind peekLine
  obtain hkind | hkind := h
  · rw [hkind]
  · rw [hkind]

theorem bvbcEmit_cases {img img' : BvbcImage} {w : BitVec 64} (h : bvbcEmit img w = some img') :
    img.ninsn < bvbcMaxInsn ∧ img'.ninsn = img.ninsn + 1 ∧ img'.kernels = img.kernels := by
  unfold bvbcEmit bvbcAddInsn32 at h
  split_ifs at h with hfull
  cases h
  exact ⟨not_le.mp hfull, rfl, rfl⟩

theorem Sized.line {counts : List Nat} (h : Sized a counts) (hok : pass2Line lx a = .ok (lx', a')) :
    Sized a' (counts ++ if lineKind lx = .endKernel then [a.kpc] else []) := by
  obtain ⟨hkind, hin, rfl⟩ | ⟨hkind, hin, img, name, himg, rfl⟩ | ⟨hkind, rfl⟩ |
    ⟨hkind, hin, w, img, -, himg, rfl⟩ := pass2Line_cases hok
  · rw [if_pos hkind]
    refine ⟨h.bound, fun _ => ?_, nofun⟩
    obtain ⟨ks, k, hks, hsum, hsizes⟩ := h.inside hin
    have hlast : a.img.ninsn - k.entry.toNat = a.kpc := by omega
    change kernelSizes a.img.ninsn a.img.kernels = _
    rw [hks, kernelSizes_concat, hsizes, hlast]
  · rw [hkind, if_neg nofun, List.append_nil]
    obtain ⟨hninsn, -, hkernels⟩ := bvbcAddKernel_cases himg
    have hbound := h.bound
    have hentry : (BitVec.ofNat 32 a.img.ninsn).toNat = a.img.ninsn := by
      unfold bvbcMaxInsn at hbound
      rw [BitVec.toNat_ofNat, Nat.mod_eq_of_lt (by omega)]
    refine ⟨hninsn ▸ hbound, nofun, fun _ => ⟨a.img.kernels, _, hkernels, ?_, ?_⟩⟩
    · exact hentry.trans hninsn.symm
    · dsimp only
      rw [hentry]
      exact h.outside hin
  · rw [hkind, if_neg nofun, List.append_nil]
    exact h
  · rw [hkind, if_neg nofun, List.append_nil]
    obtain ⟨hlt, hninsn, hkernels⟩ := bvbcEmit_cases himg
    obtain ⟨ks, k, hks, hsum, hsizes⟩ := h.inside hin
    refine ⟨?_, fun hout => ?_, fun _ => ⟨ks, k, hkernels.trans hks, ?_, hsizes⟩⟩
    · dsimp only
      omega
    · change a.inKernel = false at hout
      rw [hin] at hout
      cases hout
    · dsimp only
      omega

theorem Sized.loop {counts : List Nat} (h : Sized a counts)
    (hok : lineLoop pass2Line fuel lx a = .ok b) :
    Sized b (counts ++ kernelCounts (lineTrace pass2Line fuel lx a)) := by
  induction fuel generalizing lx a counts with
  | zero =>
      cases hok
      rw [lineTrace, kernelCounts, List.filterMap_nil, List.append_nil]
      exact h
  | succ fuel ih =>
      by_cases heof : lx.t.kind = .eof
      · rw [lineLoop, heof] at hok
        cases hok
        rw [lineTrace_of_eof heof, kernelCounts_cons, lineKind_of_lineEnd (.inr heof),
          if_neg (by decide), List.nil_append, kernelCounts, List.filterMap_nil, List.append_nil]
        exact h
      by_cases hnl : lx.t.kind = .nl
      · rw [lineLoop, hnl] at hok
        rw [lineTrace_of_nl hnl, kernelCounts_cons, lineKind_of_lineEnd (.inl hnl),
          if_neg (by decide), List.nil_append]
        exact ih h hok
      have hline : ¬ lx.AtLineEnd := not_or.mpr ⟨hnl, heof⟩
      obtain ⟨lx', a', hbody, hrest⟩ := lineLoop_ok_of_line hline hok
      rw [lineTrace_of_line hline hbody, kernelCounts_cons, ← List.append_assoc]
      exact ih (h.line hbody) hrest

end Trace

/-- **The passes in lockstep.** On an accepted source both passes come to the same lines, to the end
of the text, with the same classification, flag and counter, and every kernel has as many words as
the first pass counts. -/
theorem bradcAssemble_lockstep {source : List Byte} {img img' : BvbcImage}
    (hok : bradcAssemble source img = .ok img') :
    (pass1Trace source img).map lineView = (pass2Trace source img).map lineView ∧
      (∃ x ∈ (pass1Trace source img).getLast?, x.1.t.kind = .eof) ∧
      kernelSizes img'.ninsn img'.kernels = kernelCounts (pass1Trace source img) := by
  obtain ⟨a, b, hpass1, hpass2, hopen, rfl⟩ := bradcAssemble_eq_ok hok
  have htrace : pass2Trace source img =
      lineTrace pass2Line (passFuel source) (lexTake (lxInit source)) (pass2Start a) := by
    unfold pass2Trace
    rw [hpass1]
  have hagree : (pass1Trace source img).map lineView = (pass2Trace source img).map lineView := by
    rw [htrace]
    exact traces_agree (p := .start) ⟨rfl, rfl⟩ ⟨rfl, rfl⟩ hpass2
  refine ⟨hagree, lineTrace_ends _ (room_lt_passFuel source), ?_⟩
  have hsized : Sized (pass2Start a) [] := ⟨Nat.zero_le _, fun _ => rfl, nofun⟩
  have hsizes := (hsized.loop hpass2).outside hopen
  rw [List.nil_append, ← htrace] at hsizes
  rw [kernelCounts_of_view, hagree, ← kernelCounts_of_view]
  exact hsizes

/-- Two kernels, with a blank line and a label in the first. -/
def twoKernelSource : List Byte :=
  cstr ".kernel a\nADDi S1, S1, 1\n\nl:\nBR l\n.end\n.kernel b\nEXIT\n.end"

theorem twoKernelSource_lockstep :
    ∃ img', bradcAssemble twoKernelSource BvbcImage.zero = .ok img' ∧
      kernelSizes img'.ninsn img'.kernels = [2, 1] := by
  have hok : (bradcAssemble twoKernelSource BvbcImage.zero).isOk = true := by decide
  cases h : bradcAssemble twoKernelSource BvbcImage.zero with
  | error e => simp [h, Except.isOk, Except.toBool] at hok
  | ok img' =>
      refine ⟨img', rfl, ?_⟩
      rw [(bradcAssemble_lockstep h).2.2]
      decide

end BradVector
