import Sandix.Lib.String
import Sandix.Machinery.I386

/-!
# Arch/Strstr — the `strstr` of the i386

The text of `strstr` in `string_32.c`: `repne scasb` measures the string searched for, and `repe cmpsb`
compares it at each place of the other, whose next place is kept in `eax` meanwhile.  For the empty string
`repe cmpsb` compares nothing, and the zero flag the jump sees is that of the `decl` before the loop.

A place where the strings differ is read no further than the NUL of the string searched: behind it the
comparison has found a difference (`exists_differ`).

* `string32_strstr_eq` — the text comes to its end, with the result of the generic `strstr`, and has read
  bytes of the two strings only.
-/

namespace Sandix

open Machinery Machinery.I386

/-- The text of `strstr`; `g` is `%6`. -/
def strstrText (g : Src) : List Line := List.flatten
  [ops [.mov g .edi, .repneScasb, .not .ecx, .dec .ecx, .mov (.reg .ecx) .edx],
   [.label 1],
   ops [.mov g .edi, .mov (.reg .esi) .eax, .mov (.reg .edx) .ecx, .repeCmpsb],
   [.jump .e (.fwd 2)],
   ops [.xchg .eax .esi, .inc .esi, .cmpb 0 ⟨.eax, none, -1⟩],
   [.jump .ne (.back 1)],
   ops [.alu .xor (.reg .eax) .eax],
   [.label 2]]

/-- The state `strstr` starts in. -/
def strstrEntry (c : Cpu) (cs : ℕ) : Cpu :=
  (({ c with reads := [] }.set .eax 0).set .ecx 0xffffffff).set .esi cs

/-- `strstr` of `string_32.c`: its value, and the addresses it has read. -/
def String32.strstr (g : Src) (c : Cpu) (fuel cs : ℕ) : Exec (ℕ × List ℕ) := do
  let c ← run (strstrText g) fuel 0 (strstrEntry c cs)
  return (c.reg .eax, c.reads)

/-! ## The strings -/

section Places

variable {m : ℕ → UInt8} {cs cl ct tl i : ℕ}

/-- Where the one string does not occur in the other, the two differ before either has ended. -/
theorem exists_differ (hcs : CString m cs cl) (hct : CString m ct tl) (hi : i ≤ cl)
    (hno : ¬Occurs m cs cl ct tl i) :
    ∃ j < tl, i + j ≤ cl ∧ (∀ k < j, m (cs + i + k) = m (ct + k)) ∧ m (cs + i + j) ≠ m (ct + j) := by
  have hex : ∃ j, j < tl ∧ m (cs + i + j) ≠ m (ct + j) := by
    by_contra hall
    have hsame : ∀ j < tl, m (cs + i + j) = m (ct + j) :=
      fun j hj => by_contra fun hne => hall ⟨j, hj, hne⟩
    refine hno ⟨by_contra fun hlong => ?_, hsame⟩
    -- the NUL of `cs` would be a character of `ct`
    have hnul := hsame (cl - i) (by omega)
    rw [show cs + i + (cl - i) = cs + cl by omega, hcs.nul] at hnul
    exact hct.text (cl - i) (by omega) hnul.symm
  classical
  obtain ⟨hlt, hne⟩ := Nat.find_spec hex
  have hbefore : ∀ k < Nat.find hex, m (cs + i + k) = m (ct + k) :=
    fun k hk => by_contra fun hne => Nat.find_min hex hk ⟨hk.trans hlt, hne⟩
  refine ⟨Nat.find hex, hlt, by_contra fun hlong => ?_, hbefore, hne⟩
  have hnul := hbefore (cl - i) (by omega)
  rw [show cs + i + (cl - i) = cs + cl by omega, hcs.nul] at hnul
  exact hct.text (cl - i) (by omega) hnul.symm

end Places

/-! ## The text -/

section Text

variable {g : Src} {c : Cpu} {m : ℕ → UInt8} {cs cl ct tl i : ℕ} {Q : Cpu → Prop}

/-- The registers the text changes. -/
def strstrUsed : List Reg := [.eax, .ecx, .edx, .esi, .edi]

/-- The addresses of the two strings. -/
def InStrings (cs cl ct tl x : ℕ) : Prop := (cs ≤ x ∧ x ≤ cs + cl) ∨ (ct ≤ x ∧ x ≤ ct + tl)

/-- The next place to look at is `i`. -/
structure Looking (g : Src) (c : Cpu) (m : ℕ → UInt8) (cs cl ct tl i : ℕ) : Prop where
  operand : g.Holds c strstrUsed ct
  esi : c.reg .esi = (cs + i) % 2 ^ 32
  edx : c.reg .edx = tl
  mem : c.mem = m
  df : c.df = false
  reads : ∀ x ∈ c.reads, InStrings cs cl ct tl x

/-- Label 2. -/
theorem strstr_end (h : Q c) : Halts (strstrText g) 16 c Q := .label rfl (.done rfl h)

/-- The string searched for goes to `edi`, its length to `ecx`; `eax` keeps the place. -/
theorem place_exec (h : Looking g c m cs cl ct tl i) :
    let c' := [.mov g .edi, .mov (.reg .esi) .eax, .mov (.reg .edx) .ecx].foldl Op.exec c
    Looking g c' m cs cl ct tl i ∧ c'.reg .eax = (cs + i) % 2 ^ 32 ∧ c'.reg .edi = ct ∧
    c'.reg .ecx = tl ∧ c'.zf = c.zf := by
  have hval : c.val g = ct := h.operand.val_eq
  refine ⟨⟨h.operand.frame (fun r hr => ?_) rfl, ?_, ?_, h.mem, h.df, h.reads⟩, ?_, ?_, ?_, rfl⟩
  · simp only [strstrUsed, List.mem_cons, List.not_mem_nil, or_false, not_or] at hr
    simp [Op.exec, Cpu.set, hr]
  · simp [Op.exec, Cpu.set, h.esi]
  · simp [Op.exec, Cpu.set, h.edx]
  · simp [Op.exec, Cpu.set, Cpu.val, h.esi]
  · simp [Op.exec, Cpu.set, hval]
  · simp [Op.exec, Cpu.set, Cpu.val, h.edx]

/-- Behind a difference at `j`, the next place is set and the byte that differs is looked at again. -/
theorem next_exec {c₂ : Cpu} {j : ℕ} (h : Looking g c m cs cl ct tl i)
    (heax : c.reg .eax = (cs + i) % 2 ^ 32) (hcmp : Compared c (cs + i) ct (j + 1) c₂)
    (hcs : cs + cl < 2 ^ 32) (hj : i + j ≤ cl) (hjt : j < tl) :
    let c' := [.xchg .eax .esi, .inc .esi, .cmpb 0 ⟨.eax, none, -1⟩].foldl Op.exec c₂
    Looking g c' m cs cl ct tl (i + 1) ∧ Cond.ne.holds c' = !decide (m (cs + i + j) = 0) := by
  have heax₂ : c₂.reg .eax = (cs + i) % 2 ^ 32 :=
    (hcmp.reg .eax (by decide) (by decide) (by decide)).trans heax
  have hesi₃ : (Op.exec (Op.exec c₂ (.xchg .eax .esi)) (.inc .esi)).reg .esi =
      (cs + (i + 1)) % 2 ^ 32 := by
    rw [← Nat.add_assoc, ← Nat.mod_add_mod, ← heax₂]
    rfl
  have hea : (Op.exec (Op.exec c₂ (.xchg .eax .esi)) (.inc .esi)).ea ⟨.eax, none, -1⟩ =
      cs + i + j := by
    have hcast : (Op.exec (Op.exec c₂ (.xchg .eax .esi)) (.inc .esi)).ea ⟨.eax, none, -1⟩ =
        u32 ((c₂.reg .esi : ℤ) + 0 + -1) := rfl
    rw [hcast, hcmp.esi, u32]
    omega
  refine ⟨⟨h.operand.frame (fun r hr => ?_) hcmp.mem, hesi₃, ?_, hcmp.mem.trans h.mem, hcmp.df,
    fun x hx => ?_⟩, ?_⟩
  · simp only [strstrUsed, List.mem_cons, List.not_mem_nil, or_false, not_or] at hr
    obtain ⟨hax, hcx, hdx, hsi, hdi⟩ := hr
    simp [Op.exec, Cpu.set, Cpu.flags, Cpu.byteFlags, Cpu.see, hax, hsi, hcmp.reg r hcx hsi hdi]
  · exact (hcmp.reg .edx (by decide) (by decide) (by decide)).trans h.edx
  · have hlog : ([.xchg .eax .esi, .inc .esi, .cmpb 0 ⟨.eax, none, -1⟩].foldl Op.exec c₂).reads =
        c₂.reads ++ [(cs + i + j + 0) % 2 ^ 32] := by
      rw [← hea]
      rfl
    rw [hlog, List.mem_append, List.mem_singleton] at hx
    rcases hx with hx | rfl
    · rcases hcmp.reads x hx with hx | hx
      · exact h.reads x hx
      · unfold InStrings
        omega
    · unfold InStrings
      omega
  · have hzf : Cond.ne.holds ([.xchg .eax .esi, .inc .esi, .cmpb 0 ⟨.eax, none, -1⟩].foldl Op.exec c₂) =
        !decide ((c₂.mem ((cs + i + j) % 2 ^ 32)).toNat = 0) := by
      rw [← hea]
      rfl
    rw [hzf, Nat.mod_eq_of_lt (by omega), hcmp.mem, h.mem]
    exact congrArg not (decide_eq_decide.mpr (UInt8.toNat_inj (b := 0)))

/-- **The loop**, from the place `i` on. -/
theorem strstr_halts (hcs : CString m cs cl) (hct : CString m ct tl) (n : ℕ) :
    ∀ {i : ℕ} {c : Cpu}, n = cl - i → i ≤ cl → (∀ i' < i, ¬Occurs m cs cl ct tl i') →
      Looking g c m cs cl ct tl i → (tl = 0 → c.zf = true) →
      Halts (strstrText g) 5 c fun c' =>
        FirstOccurrence m cs cl ct tl (c'.reg .eax) ∧ ∀ x ∈ c'.reads, InStrings cs cl ct tl x := by
  have hfits := hcs.fits
  have hfits' := hct.fits
  induction n using Nat.strong_induction_on with
  | _ n ih =>
    intro i c hn hi hno h hempty
    obtain ⟨h₁, heax, hedi, hecx, hzf₁⟩ := place_exec h
    refine .label rfl (.block [.mov g .edi, .mov (.reg .esi) .eax, .mov (.reg .edx) .ecx] rfl
      (.op rfl ?_))
    generalize ([.mov g .edi, .mov (.reg .esi) .eax, .mov (.reg .edx) .ecx] : List Op).foldl Op.exec c
      = c₁ at *
    have hedi' : c₁.reg .edi = ct % 2 ^ 32 := by rw [hedi, Nat.mod_eq_of_lt (by omega)]
    by_cases hocc : Occurs m cs cl ct tl i
    · -- the comparison runs to its end
      have hlen := hocc.1
      obtain ⟨hcmp, hzf⟩ := Cpu.rep_cmpsb_same h₁.df h₁.esi hedi' (by omega) (by omega)
        (fun k hk => by rw [h₁.mem]; exact hocc.2 k hk) fun h₀ => hzf₁.trans (hempty h₀)
      rw [← hecx] at hcmp hzf
      refine .taken rfl hzf rfl (strstr_end ⟨Or.inl ⟨i, ?_, hocc, hno⟩, fun x hx => ?_⟩)
      · have hkept := (hcmp.reg .eax (by decide) (by decide) (by decide)).trans heax
        exact hkept.trans (Nat.mod_eq_of_lt (by omega))
      · rcases hcmp.reads x hx with hx | hx
        · exact h₁.reads x hx
        · unfold InStrings
          omega
    · obtain ⟨j, hjt, hj, hbefore, hne⟩ := exists_differ hcs hct hi hocc
      obtain ⟨hcmp, hzf⟩ := Cpu.rep_cmpsb_differ (n := tl) h₁.df h₁.esi hedi' (by omega) (by omega) hjt
        (by rw [h₁.mem]; exact hbefore) (by rw [h₁.mem]; exact hne)
      rw [← hecx] at hcmp hzf
      obtain ⟨h₂, hgo⟩ := next_exec h₁ heax hcmp hfits hj hjt
      refine .passed rfl hzf (.block [.xchg .eax .esi, .inc .esi, .cmpb 0 ⟨.eax, none, -1⟩] rfl ?_)
      by_cases hend : i + j < cl
      · have hchar : m (cs + i + j) ≠ 0 := by
          rw [Nat.add_assoc]
          exact hcs.text _ hend
        refine .taken rfl (hgo.trans (by rw [decide_eq_false hchar, Bool.not_false])) rfl ?_
        refine ih (cl - (i + 1)) (by omega) rfl (by omega) (fun i' hi' => ?_) h₂ fun h₀ => by omega
        rcases Nat.lt_succ_iff_lt_or_eq.mp hi' with hi' | rfl
        · exact hno i' hi'
        · exact hocc
      · -- too little of `cs` is left for `ct` from here on
        have hnul : m (cs + i + j) = 0 := by
          rw [show cs + i + j = cs + cl by omega]
          exact hcs.nul
        refine .passed rfl (hgo.trans (by rw [decide_eq_true hnul, Bool.not_true])) (.op rfl
          (strstr_end ⟨Or.inr ⟨?_, fun i' hocc' => ?_⟩, h₂.reads⟩))
        · simp [Op.exec, Cpu.set, Cpu.val, Alu.result]
        · have hlen := hocc'.1
          exact hno i' (by omega) hocc'

/-- The length of the string searched for is measured; it is zero just when the flag is. -/
theorem strstr_measure (hg : g.Holds c strstrUsed ct) (hdf : c.df = false) (hcs : cs < 2 ^ 32)
    (hct : CString c.mem ct tl)
    (hloop : ∀ c', Looking g c' c.mem cs cl ct tl 0 → (tl = 0 → c'.zf = true) →
      Halts (strstrText g) 5 c' Q) : Halts (strstrText g) 0 (strstrEntry c cs) Q := by
  have hfits := hct.fits
  have hnonnull := hct.nonnull
  have hholds : g.Holds (strstrEntry c cs) strstrUsed ct := by
    refine hg.frame (fun r hr => ?_) rfl
    simp only [strstrUsed, List.mem_cons, List.not_mem_nil, or_false, not_or] at hr
    simp [strstrEntry, Cpu.set, hr]
  have hscan : Scanned (Op.exec (strstrEntry c cs) (.mov g .edi)) ct tl 0xffffffff
      (Op.exec (Op.exec (strstrEntry c cs) (.mov g .edi)) .repneScasb) := by
    refine Cpu.rep_scasb hdf hholds.val_eq hfits (by omega) (fun i hi => ?_) ?_
    · exact fun h₀ => hct.text i hi (UInt8.toNat_inj.mp h₀)
    · exact congrArg UInt8.toNat hct.nul
  refine .op rfl (.op rfl ?_)
  generalize Op.exec (Op.exec (strstrEntry c cs) (.mov g .edi)) .repneScasb = c₁ at hscan
  have hlen : sub32 (2 ^ 32 - 1 - c₁.reg .ecx) 1 = tl := by
    rw [hscan.ecx, sub32]
    omega
  refine .block [.not .ecx, .dec .ecx, .mov (.reg .ecx) .edx] rfl
    (hloop _ ⟨hholds.frame (fun r hr => ?_) hscan.mem, ?_, ?_, hscan.mem, hscan.df, fun x hx => ?_⟩
      fun h₀ => ?_)
  · simp only [strstrUsed, List.mem_cons, List.not_mem_nil, or_false, not_or] at hr
    obtain ⟨hax, hcx, hdx, hsi, hdi⟩ := hr
    simp [Op.exec, Cpu.set, Cpu.flags, hcx, hdx, hdi, hscan.reg r hcx hdi]
  · rw [Nat.add_zero, Nat.mod_eq_of_lt hcs]
    exact hscan.reg .esi (by decide) (by decide)
  · rw [← hlen]
    rfl
  · rcases hscan.reads x hx with hx | hx
    · exact absurd hx List.not_mem_nil
    · exact Or.inr hx
  · rw [h₀] at hlen
    have hzf : (([.not .ecx, .dec .ecx, .mov (.reg .ecx) .edx] : List Op).foldl Op.exec c₁).zf =
        decide (sub32 (2 ^ 32 - 1 - c₁.reg .ecx) 1 = 0) := rfl
    rw [hzf, hlen]
    rfl

end Text

/-! ## `strstr` -/

/-- **The assembly `strstr` is the generic one**, and reads nothing but the two strings. -/
theorem string32_strstr_eq {g : Src} {c : Cpu} {cs ct cl tl : ℕ} (hg : g.Holds c strstrUsed ct)
    (hdf : c.df = false) (hcs : CString c.mem cs cl) (hct : CString c.mem ct tl) :
    ∃ fuel r reads, String32.strstr g c fuel cs = .ok (r, reads) ∧
      (∃ fuel, strstr fuel c.mem cs ct = .ok r) ∧ FirstOccurrence c.mem cs cl ct tl r ∧
      ∀ x ∈ reads, InStrings cs cl ct tl x := by
  have hfits := hcs.fits
  have hhalts : Halts (strstrText g) 0 (strstrEntry c cs) fun c' =>
      FirstOccurrence c.mem cs cl ct tl (c'.reg .eax) ∧ ∀ x ∈ c'.reads, InStrings cs cl ct tl x :=
    strstr_measure hg hdf (by omega) hct fun c' h hempty =>
      strstr_halts hcs hct cl rfl (Nat.zero_le cl) (fun i hi => absurd hi (Nat.not_lt_zero i)) h hempty
  obtain ⟨fuel, c', hrun, hfirst, hreads⟩ := hhalts
  obtain ⟨r, hgen, hfirst'⟩ := strstr_spec hcs hct (Nat.lt_succ_of_le (Nat.le_max_left cl tl))
    (Nat.lt_succ_of_le (Nat.le_max_right cl tl))
  obtain rfl := hfirst.unique hfirst'
  refine ⟨fuel, c'.reg .eax, c'.reads, ?_, ⟨_, hgen⟩, hfirst, hreads⟩
  rw [String32.strstr, hrun, Exec.ok_bind, Exec.pure_eq_ok]

/-- `"b"` at `0x2000`, in `ebx`, is searched for in `"ab"` at `0x1000`. -/
theorem string32_strstr_eq_ab :
    let c : Cpu := ⟨fun r => if r = .ebx then 0x2000 else 0, false, false, false, false, fun x =>
      if x = 0x1000 then 97 else if x = 0x1001 ∨ x = 0x2000 then 98 else 0, []⟩
    ∃ fuel r reads, String32.strstr (.reg .ebx) c fuel 0x1000 = .ok (r, reads) ∧
      (∃ fuel, strstr fuel c.mem 0x1000 0x2000 = .ok r) ∧ FirstOccurrence c.mem 0x1000 2 0x2000 1 r ∧
      ∀ x ∈ reads, InStrings 0x1000 2 0x2000 1 x :=
  string32_strstr_eq ⟨by decide, rfl⟩ rfl ⟨by decide, by decide, by decide, rfl⟩
    ⟨by decide, by decide, by decide, rfl⟩

end Sandix
