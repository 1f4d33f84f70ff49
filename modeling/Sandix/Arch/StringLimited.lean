import Sandix.Lib.String
import Sandix.Machinery.I386

/-!
# Arch/StringLimited — the length-limited string functions of the i386

The texts of `strncpy`, `strncat`, `strncmp` and `strnlen` in `string_32.c`.  The first three count with
`decl; js`, and so take a limit whose predecessor has its sign bit set for one that is used up;
`strnlen` compares with −1.  `strncat` falls through from the copied NUL to the store of the one that ends
a string cut short.

`strncpy` and `strncat` share a loop (`LoopAt.halts`), which is left with the limit used up or after the
NUL.

* `string32_limited_agrees_iff` — when each agrees with the generic function, for every limit.
-/

namespace Sandix

open Machinery Machinery.I386 Function

/-- The loop `strncpy` and `strncat` share: a character is copied unless the limit is used up. -/
def copyLoop : List Line :=
  [.label 1, .op (.dec .ecx), .jump .s (.fwd 2), .op .lodsb, .op .stosb, .op .testAl,
   .jump .ne (.back 1)]

/-- The text of `strncpy`. -/
def strncpyText : List Line := copyLoop ++ [.op .repStosb, .label 2]

/-- The text of `strncat`; `g` is `%8`. -/
def strncatText (g : Src) : List Line :=
  ops [.repneScasb, .dec .edi, .mov g .ecx] ++ copyLoop ++
    (.label 2 :: ops [.alu .xor (.reg .eax) .eax, .stosb])

/-- The text of `strncmp`. -/
def strncmpText : List Line :=
  [.label 1, .op (.dec .ecx), .jump .s (.fwd 2), .op .lodsb, .op .scasb, .jump .ne (.fwd 3),
   .op .testAl, .jump .ne (.back 1),
   .label 2, .op (.alu .xor (.reg .eax) .eax), .jump .always (.fwd 4),
   .label 3, .op (.alu .sbb (.reg .eax) .eax), .op (.orAl 1),
   .label 4]

/-- The text of `strnlen`. -/
def strnlenText : List Line :=
  [.op (.mov (.reg .ecx) .eax), .jump .always (.fwd 2),
   .label 1, .op (.cmpb 0 ⟨.eax, none, 0⟩), .jump .e (.fwd 3), .op (.inc .eax),
   .label 2, .op (.dec .edx), .op (.alu .cmp (.imm 0xffffffff) .edx), .jump .ne (.back 1),
   .label 3, .op (.alu .sub (.reg .ecx) .eax)]

namespace String32

/-- `strncpy` of `string_32.c`. -/
def strncpy (c : Cpu) (fuel dest src count : ℕ) : Exec (ℕ × (ℕ → UInt8)) := do
  let c ← run strncpyText fuel 0 (((c.set .esi src).set .edi dest).set .ecx count)
  return (dest, c.mem)

/-- `strncat` of `string_32.c`. -/
def strncat (g : Src) (c : Cpu) (fuel dest src : ℕ) : Exec (ℕ × (ℕ → UInt8)) := do
  let c ← run (strncatText g) fuel 0
    ((((c.set .esi src).set .edi dest).set .eax 0).set .ecx 0xffffffff)
  return (dest, c.mem)

/-- `strncmp` of `string_32.c`. -/
def strncmp (c : Cpu) (fuel cs ct count : ℕ) : Exec (ℤ × (ℕ → UInt8)) := do
  let c ← run strncmpText fuel 0 (((c.set .esi cs).set .edi ct).set .ecx count)
  return (int32 (c.reg .eax), c.mem)

/-- `strnlen` of `string_32.c`. -/
def strnlen (c : Cpu) (fuel s count : ℕ) : Exec (ℕ × (ℕ → UInt8)) := do
  let c ← run strnlenText fuel 0 ((c.set .ecx s).set .edx count)
  return (c.reg .eax, c.mem)

end String32

/-! ## The copying loop -/

section Copy

variable {prog : List Line} {pc e : ℕ} {c : Cpu} {m : ℕ → UInt8} {n s d : ℕ} {Q : Cpu → Prop}

/-- A character is loaded, stored and tested. -/
theorem copyByte_exec (h : Moving c m n s d) :
    let c' := [.lodsb, .stosb, .testAl].foldl Op.exec c
    Moving c' (update m (d % 2 ^ 32) (m (s % 2 ^ 32))) n ((s + 1) % 2 ^ 32) ((d + 1) % 2 ^ 32) ∧
    c'.al = (m (s % 2 ^ 32)).toNat ∧ c'.zf = decide (m (s % 2 ^ 32) = 0) := by
  refine ⟨⟨?_, ?_, ?_, ?_, h.df⟩, ?_, ?_⟩
  · simp [Op.exec, Cpu.lodsb, Cpu.stosb, Cpu.set, Cpu.see, h.ecx]
  · simp [Op.exec, Cpu.lodsb, Cpu.stosb, Cpu.set, Cpu.see, Cpu.advance, h.esi, h.df]
  · simp [Op.exec, Cpu.lodsb, Cpu.stosb, Cpu.set, Cpu.see, Cpu.advance, h.edi, h.df]
  · simp [Op.exec, Cpu.lodsb, Cpu.stosb, Cpu.set, Cpu.see, Cpu.al, Cpu.byte, store, h.esi, h.edi, h.mem]
  · simp [Op.exec, Cpu.lodsb, Cpu.stosb, Cpu.set, Cpu.see, Cpu.al, Cpu.byte, h.esi, h.mem]
  · simp [Op.exec, Cpu.lodsb, Cpu.stosb, Cpu.set, Cpu.see, Cpu.al, Cpu.byte, h.esi, h.mem,
      ← UInt8.toNat_inj]

/-- `decl %ecx`. -/
theorem dec_exec (h : Moving c m n s d) : Moving (Op.exec c (.dec .ecx)) m (sub32 n 1) s d ∧
    (Op.exec c (.dec .ecx)).sf = decide (2 ^ 31 ≤ sub32 n 1) := by
  rw [← h.ecx]
  exact ⟨⟨rfl, h.esi, h.edi, h.mem, h.df⟩, rfl⟩

/-- The loop stands at line `pc`, and the jump out of it leads to `e`. -/
structure LoopAt (prog : List Line) (pc e : ℕ) : Prop where
  lines : (prog.drop pc).take 7 = copyLoop
  limit : target prog (pc + 2) (.fwd 2) = some e
  again : target prog (pc + 6) (.back 1) = some pc

theorem LoopAt.line (h : LoopAt prog pc e) {i : ℕ} (hi : i < 7) : prog[pc + i]? = copyLoop[i]? := by
  rw [← h.lines, List.getElem?_take_of_lt hi, List.getElem?_drop]

/-- A limit whose predecessor is negative is used up at once. -/
theorem LoopAt.negative (hat : LoopAt prog pc e) (h : Moving c m n s d) (hn : 2 ^ 31 ≤ sub32 n 1)
    (hend : ∀ c', Moving c' m (sub32 n 1) s d → Halts prog e c' Q) : Halts prog pc c Q := by
  obtain ⟨h₁, hsf⟩ := dec_exec h
  exact .label (hat.line (by decide : 0 < 7)) (.op (hat.line (by decide : 1 < 7))
    (.taken (hat.line (by decide : 2 < 7)) (hsf.trans (decide_eq_true hn)) hat.limit (hend _ h₁)))

variable {src sl count : ℕ}

/-- **The loop**, from the `k`-th character on: it is left with the limit used up, or after the NUL. -/
theorem LoopAt.halts (hat : LoopAt prog pc e) (hs : CString m src sl) (hcount : count ≤ 2 ^ 31)
    (hd : d + min count (sl + 1) ≤ 2 ^ 32) (hapart : BlocksApart d (min count (sl + 1)) src (sl + 1))
    (hlimit : count ≤ sl → ∀ c', Moving c' (overwrite m d (textAt m src sl) 0 count) (sub32 0 1)
      ((src + count) % 2 ^ 32) ((d + count) % 2 ^ 32) → Halts prog e c' Q)
    (hnul : sl < count → ∀ c', Moving c' (overwrite m d (textAt m src sl) 0 (sl + 1)) (count - (sl + 1))
      ((src + (sl + 1)) % 2 ^ 32) ((d + (sl + 1)) % 2 ^ 32) → c'.al = 0 → Halts prog (pc + 7) c' Q) :
    ∀ {j k : ℕ} {c : Cpu}, k + j = count → k ≤ sl →
      Moving c (overwrite m d (textAt m src sl) 0 k) j ((src + k) % 2 ^ 32) ((d + k) % 2 ^ 32) →
      Halts prog pc c Q
  | 0, k, c, hk, hks, h => by
      obtain rfl : k = count := by omega
      exact hat.negative h (by decide) (hlimit hks)
  | j + 1, k, c, hk, hks, h => by
      have hpred : sub32 (j + 1) 1 = j := sub32_of_le (by omega) (by omega)
      obtain ⟨h₁, hsf⟩ := dec_exec h
      rw [hpred] at h₁ hsf
      obtain ⟨h₂, hal, hzf⟩ := copyByte_exec h₁
      have hbyte : overwrite m d (textAt m src sl) 0 k ((src + k) % 2 ^ 32) = textAt m src sl k :=
        hs.byte_overwrite (by unfold BlocksApart at *; omega) hks
      have hnext : ∀ {a : ℕ}, ((a + k) % 2 ^ 32 + 1) % 2 ^ 32 = (a + (k + 1)) % 2 ^ 32 := by
        intro a
        omega
      have hmem : update (overwrite m d (textAt m src sl) 0 k) (d + k) (textAt m src sl k) =
          overwrite m d (textAt m src sl) 0 (k + 1) := by rw [← overwrite_succ, Nat.zero_add]
      rw [Nat.mod_mod, Nat.mod_mod, hbyte, Nat.mod_eq_of_lt (show d + k < 2 ^ 32 by omega), hmem,
        ← Nat.mod_eq_of_lt (show d + k < 2 ^ 32 by omega), hnext, hnext] at h₂
      rw [Nat.mod_mod, hbyte] at hal hzf
      refine .label (hat.line (by decide : 0 < 7)) (.op (hat.line (by decide : 1 < 7))
        (.passed (hat.line (by decide : 2 < 7)) (hsf.trans (decide_eq_false (by omega)))
        (.op (hat.line (by decide : 3 < 7)) (.op (hat.line (by decide : 4 < 7))
        (.op (hat.line (by decide : 5 < 7)) ?_)))))
      by_cases hend : k < sl
      · have hgo : Cond.ne.holds (([.lodsb, .stosb, .testAl] : List Op).foldl Op.exec
            (Op.exec c (.dec .ecx))) = true := by
          rw [Cond.holds, hzf, decide_eq_false (hs.textAt_ne_zero.mpr hend), Bool.not_false]
        exact .taken (hat.line (by decide : 6 < 7)) hgo hat.again
          (LoopAt.halts hat hs hcount hd hapart hlimit hnul (by omega) hend h₂)
      · obtain rfl : k = sl := by omega
        have hstop : Cond.ne.holds (([.lodsb, .stosb, .testAl] : List Op).foldl Op.exec
            (Op.exec c (.dec .ecx))) = false := by
          rw [Cond.holds, hzf, decide_eq_true (textAt_of_le le_rfl), Bool.not_true]
        rw [textAt_of_le le_rfl] at hal
        refine .passed (hat.line (by decide : 6 < 7)) hstop (hnul (by omega) _ ?_ hal)
        rwa [show count - (k + 1) = j by omega]

/-- …from the first character on. -/
theorem LoopAt.start (hat : LoopAt prog pc e) (hs : CString m src sl) (hcount : count ≤ 2 ^ 31)
    (hd' : d < 2 ^ 32) (hd : d + min count (sl + 1) ≤ 2 ^ 32)
    (hapart : BlocksApart d (min count (sl + 1)) src (sl + 1)) (h : Moving c m count src d)
    (hlimit : count ≤ sl → ∀ c', Moving c' (overwrite m d (textAt m src sl) 0 count) (sub32 0 1)
      ((src + count) % 2 ^ 32) ((d + count) % 2 ^ 32) → Halts prog e c' Q)
    (hnul : sl < count → ∀ c', Moving c' (overwrite m d (textAt m src sl) 0 (sl + 1)) (count - (sl + 1))
      ((src + (sl + 1)) % 2 ^ 32) ((d + (sl + 1)) % 2 ^ 32) → c'.al = 0 → Halts prog (pc + 7) c' Q) :
    Halts prog pc c Q := by
  have hfits := hs.fits
  refine hat.halts hs hcount hd hapart hlimit hnul (Nat.zero_add count) (Nat.zero_le sl) ?_
  rw [overwrite_zero]
  exact h.mod (by omega) hd'

end Copy

/-! ## `strncpy` -/

section Strncpy

variable {c : Cpu} {m : ℕ → UInt8} {dest src sl count : ℕ}

theorem strncpy_loopAt : LoopAt strncpyText 0 8 := ⟨rfl, rfl, rfl⟩

/-- Below the sign bit, the string is copied and padded. -/
theorem strncpy_halts (h : Moving c m count src dest) (hs : CString m src sl) (hcount : count ≤ 2 ^ 31)
    (hd : dest + count ≤ 2 ^ 32) (hd' : dest < 2 ^ 32) (hapart : BlocksApart dest count src (sl + 1)) :
    Halts strncpyText 0 c fun c' => c'.mem = overwrite m dest (textAt m src sl) 0 count := by
  refine strncpy_loopAt.start hs hcount hd' (by omega) (by unfold BlocksApart at *; omega) h
    (fun _ c' h' => ?_) (fun hsl c' h' hal => ?_)
  · exact .label rfl (.done rfl h'.mem)
  · have hpad : ∀ i < count - (sl + 1), (fun _ => UInt8.ofNat 0) (0 + i) =
        textAt m src sl (0 + (sl + 1) + i) := by
      intro i _
      rw [textAt_of_le (by omega)]
      rfl
    have hfill : (Op.exec c' .repStosb).mem = overwrite m dest (textAt m src sl) 0 count := by
      have hstosb := Cpu.rep_stosb (q := c'.reg .ecx) h'.df h'.edi (by rw [h'.ecx]; omega)
      rw [h'.mem, h'.ecx, hal, overwrite_congr hpad, overwrite_glue m dest _ 0 le_rfl (by omega),
        Nat.add_sub_cancel' hsl] at hstosb
      rw [← hstosb, ← h'.ecx]
      rfl
    exact .op rfl (.label rfl (.done rfl hfill))

/-- …and from there on nothing is. -/
theorem strncpy_halts_negative (h : Moving c m count src dest) (hlt : count < 2 ^ 32)
    (hcount : 2 ^ 31 < count) : Halts strncpyText 0 c fun c' => c'.mem = m :=
  strncpy_loopAt.negative h (by rw [sub32_of_le hlt (by omega)]; omega)
    fun _ h' => .label rfl (.done rfl h'.mem)

/-- **`strncpy` agrees** for a limit whose predecessor is not negative, or where there is nothing to
write. -/
theorem strncpy_agrees_iff (hdf : c.df = false) (hs : CString c.mem src sl) (hlt : count < 2 ^ 32)
    (hd' : dest < 2 ^ 32) (hd : dest + count ≤ 2 ^ 32) (hapart : BlocksApart dest count src (sl + 1)) :
    (∃ fuel, String32.strncpy c fuel dest src count = .ok (strncpy c.mem dest src count)) ↔
      count ≤ 2 ^ 31 ∨ ∀ i < count, c.mem (dest + i) = textAt c.mem src sl i := by
  have hentry : Moving (((c.set .esi src).set .edi dest).set .ecx count) c.mem count src dest :=
    ⟨rfl, rfl, rfl, rfl, hdf⟩
  have hsame : (∀ i < count, c.mem (dest + i) = textAt c.mem src sl i) ↔
      c.mem = overwrite c.mem dest (textAt c.mem src sl) 0 count := by
    rw [eq_comm, overwrite_eq_self_iff]
    simp only [Nat.zero_add]
  rw [strncpy_eq hs hd hapart, hsame]
  rcases le_or_gt count (2 ^ 31) with hcount | hcount
  · have hhalts := (strncpy_halts hentry hs hcount hd hd' hapart).mono
      fun c' hmem => congrArg (Prod.mk dest) hmem
    exact iff_of_true (hhalts.returns_iff.mpr rfl) (Or.inl hcount)
  · have hhalts := (strncpy_halts_negative hentry hlt hcount).mono
      fun c' hmem => congrArg (Prod.mk dest) hmem
    refine hhalts.returns_iff.trans ?_
    rw [Prod.mk_right_inj, or_iff_right (not_le.mpr hcount)]

end Strncpy

/-! ## `strncat` -/

section Strncat

variable {g : Src} {c : Cpu} {m : ℕ → UInt8} {dest src dl sl count e : ℕ} {Q : Cpu → Prop}

theorem strncat_loopAt : LoopAt (strncatText g) 3 10 := ⟨rfl, rfl, rfl⟩

/-- The state `strncat` starts in. -/
def strncatEntry (c : Cpu) (dest src : ℕ) : Cpu :=
  (((c.set .esi src).set .edi dest).set .eax 0).set .ecx 0xffffffff

/-- The end of `dest` is found, and `%8` is the limit. -/
theorem strncat_scan (hg : g.Holds c [.esi, .edi, .eax, .ecx] count) (hdf : c.df = false)
    (hd : CString c.mem dest dl)
    (hloop : ∀ c', Moving c' c.mem count src (dest + dl) → Halts (strncatText g) 3 c' Q) :
    Halts (strncatText g) 0 (strncatEntry c dest src) Q := by
  have hfits := hd.fits
  have hnonnull := hd.nonnull
  have hscan : Scanned (strncatEntry c dest src) dest dl 0xffffffff
      (Op.exec (strncatEntry c dest src) .repneScasb) := by
    refine Cpu.rep_scasb hdf rfl hfits (by omega) (fun i hi => ?_) ?_
    · exact fun h₀ => hd.text i hi (UInt8.toNat_inj.mp h₀)
    · exact congrArg UInt8.toNat hd.nul
  refine .op rfl ?_
  generalize Op.exec (strncatEntry c dest src) .repneScasb = c₁ at hscan
  refine .op rfl (.op rfl (hloop _ ⟨?_, ?_, ?_, hscan.mem, hscan.df⟩))
  · have hholds : g.Holds (Op.exec c₁ (.dec .edi)) [.esi, .edi, .eax, .ecx] count := by
      refine hg.frame (fun r hr => ?_) hscan.mem
      simp only [List.mem_cons, List.not_mem_nil, or_false, not_or] at hr
      obtain ⟨hsi, hdi, hax, hcx⟩ := hr
      simp [Op.exec, Cpu.set, Cpu.flags, hdi, hscan.reg r hcx hdi, strncatEntry, hsi, hax, hcx]
    rw [← hholds.val_eq]
    simp [Op.exec, Cpu.set]
  · simp [Op.exec, Cpu.set, Cpu.flags, hscan.reg .esi, strncatEntry]
  · have hedi : sub32 (c₁.reg .edi) 1 = dest + dl := by
      rw [hscan.edi, sub32]
      omega
    simp [Op.exec, Cpu.set, Cpu.flags, hedi]

/-- The NUL at the end. -/
theorem catEnd_halts {n s : ℕ} (h : Moving c m n s e) :
    Halts (strncatText g) 10 c fun c' => c'.mem = update m (e % 2 ^ 32) 0 := by
  refine .label rfl (.op rfl (.op rfl (.done rfl ?_)))
  simp [Op.exec, Cpu.stosb, Cpu.set, Cpu.flags, Cpu.val, Cpu.al, Alu.result, store, h.edi, h.mem]

/-- The limit is used up first. -/
theorem strncat_halts_limit (h : Moving c m count src e) (hs : CString m src sl)
    (hcount : count ≤ 2 ^ 31) (hsl : count ≤ sl) (he : e + count < 2 ^ 32)
    (hapart : BlocksApart e (count + 1) src (sl + 1)) : Halts (strncatText g) 3 c fun c' =>
      c'.mem = overwrite m e (textAt m src count) 0 (count + 1) := by
  have hsame : ∀ i < count, textAt m src sl (0 + i) = textAt m src count (0 + i) := by
    intro i hi
    rw [textAt_of_lt (by omega), textAt_of_lt (by omega)]
  refine strncat_loopAt.start hs hcount (by omega) (by omega) (by unfold BlocksApart at *; omega) h
    (fun _ c' h' => ?_) (fun hlt => absurd hlt (by omega))
  refine (catEnd_halts h').mono fun c'' hmem => hmem.trans ?_
  rw [Nat.mod_mod, Nat.mod_eq_of_lt he, overwrite_congr hsame, overwrite_textAt_end]

/-- The NUL is copied first, and one more is stored behind it. -/
theorem strncat_halts_nul (h : Moving c m count src e) (hs : CString m src sl)
    (hcount : count ≤ 2 ^ 31) (hsl : sl < count) (he : e + sl < 2 ^ 32)
    (hapart : BlocksApart e (sl + 1) src (sl + 1)) : Halts (strncatText g) 3 c fun c' =>
      c'.mem = update (overwrite m e (textAt m src sl) 0 (sl + 1)) ((e + (sl + 1)) % 2 ^ 32) 0 := by
  refine strncat_loopAt.start hs hcount (by omega) (by omega) (by unfold BlocksApart at *; omega) h
    (fun hle => absurd hle (by omega)) (fun _ c' h' _ => ?_)
  exact (catEnd_halts h').mono fun c'' hmem => by rw [hmem, Nat.mod_mod]

/-- A limit from `2 ^ 31 + 1` on appends nothing. -/
theorem strncat_halts_negative (h : Moving c m count src e) (hlt : count < 2 ^ 32)
    (hcount : 2 ^ 31 < count) (he : e < 2 ^ 32) (hnul : m e = 0) :
    Halts (strncatText g) 3 c fun c' => c'.mem = m := by
  refine strncat_loopAt.negative h (by rw [sub32_of_le hlt (by omega)]; omega) fun c' h' => ?_
  refine (catEnd_halts h').mono fun c'' hmem => ?_
  rw [hmem, Nat.mod_eq_of_lt he, ← hnul, update_eq_self]

/-- The two versions agree when the text ends with the memory of the generic one. -/
theorem strncat_returns_iff (hd : CString c.mem dest dl) (hs : CString c.mem src sl)
    (hfits : dest + dl + min count sl < 2 ^ 32)
    (hapart : BlocksApart (dest + dl) (min count sl + 1) src (sl + 1))
    (hhalts : Halts (strncatText g) 0 (strncatEntry c dest src) fun c' => c'.mem = m) :
    (∃ r, (∃ fuel, String32.strncat g c fuel dest src = .ok r) ∧
      ∃ fuel, strncat fuel c.mem dest src count = .ok r) ↔
    m = overwrite c.mem (dest + dl) (textAt c.mem src (min count sl)) 0 (min count sl + 1) := by
  have hgen := strncat_eq hd hs hfits hapart (Nat.lt_succ_self dl)
  have hgen_iff : ∀ {r}, (∃ fuel, strncat fuel c.mem dest src count = .ok r) ↔
      (dest, overwrite c.mem (dest + dl) (textAt c.mem src (min count sl)) 0 (min count sl + 1)) = r :=
    ⟨fun ⟨_, h⟩ => strncat_unique hgen h, fun h => ⟨dl + 1, h ▸ hgen⟩⟩
  have hasm : ∀ {r}, (∃ fuel, String32.strncat g c fuel dest src = .ok r) ↔ (dest, m) = r :=
    (hhalts.mono fun c' hmem => congrArg (Prod.mk dest) hmem).returns_iff
  simp only [hgen_iff, hasm, exists_eq_left', Prod.mk_right_inj]
  exact eq_comm

/-- **`strncat` agrees** when the limit is used up first, or the byte behind the copied NUL is a NUL
anyway; for a limit whose predecessor is negative, when there is nothing to append. -/
theorem strncat_agrees_iff (hg : g.Holds c [.esi, .edi, .eax, .ecx] count) (hdf : c.df = false)
    (hd : CString c.mem dest dl) (hs : CString c.mem src sl) (hlt : count < 2 ^ 32)
    (hfits : dest + dl + min count sl < 2 ^ 32)
    (hapart : BlocksApart (dest + dl) (min count sl + 1) src (sl + 1)) :
    (∃ r, (∃ fuel, String32.strncat g c fuel dest src = .ok r) ∧
      ∃ fuel, strncat fuel c.mem dest src count = .ok r) ↔
    (count ≤ 2 ^ 31 ∧ (count ≤ sl ∨ c.mem ((dest + dl + sl + 1) % 2 ^ 32) = 0)) ∨
      (2 ^ 31 < count ∧ sl = 0) := by
  have hret : ∀ {m'}, Halts (strncatText g) 0 (strncatEntry c dest src) (fun c' => c'.mem = m') → _ :=
    strncat_returns_iff hd hs hfits hapart
  have hnonnull := hd.nonnull
  have hend := hd.fits
  rcases le_or_gt count (2 ^ 31) with hcount | hcount
  · rw [and_iff_right hcount, or_iff_left fun h => absurd h.1 (not_lt.mpr hcount)]
    rcases le_or_gt count sl with hsl | hsl
    · rw [Nat.min_eq_left hsl] at hret hfits hapart
      have hhalts := strncat_scan hg hdf hd fun c' h =>
        strncat_halts_limit h hs hcount hsl hfits hapart
      exact iff_of_true ((hret hhalts).mpr rfl) (Or.inl hsl)
    · rw [Nat.min_eq_right hsl.le] at hret hfits hapart
      have hhalts := strncat_scan hg hdf hd fun c' h =>
        strncat_halts_nul h hs hcount hsl hfits hapart
      have hbehind : overwrite c.mem (dest + dl) (textAt c.mem src sl) 0 (sl + 1)
          ((dest + dl + (sl + 1)) % 2 ^ 32) = c.mem ((dest + dl + (sl + 1)) % 2 ^ 32) :=
        overwrite_of_notMem (by omega)
      rw [hret hhalts, or_iff_right (not_le.mpr hsl), update_eq_self_iff, hbehind, ← Nat.add_assoc]
      exact eq_comm
  · have hhalts := strncat_scan hg hdf hd fun c' (h : Moving c' c.mem count src (dest + dl)) =>
      strncat_halts_negative h hlt hcount hend hd.nul
    rw [hret hhalts, or_iff_right fun h => absurd h.1 (not_le.mpr hcount), and_iff_right hcount, eq_comm,
      overwrite_eq_self_iff]
    refine ⟨fun h => ?_, fun h => ?_⟩
    · by_contra hne
      have hfirst := h 0 (Nat.zero_lt_succ _)
      rw [Nat.add_zero, hd.nul, Nat.add_zero, textAt_of_lt (by omega)] at hfirst
      exact hs.text 0 (Nat.pos_of_ne_zero hne) hfirst.symm
    · intro i hi
      obtain rfl : i = 0 := by omega
      rw [Nat.add_zero, hd.nul, textAt_of_le (by omega)]

end Strncat

/-! ## `strncmp` -/

section Strncmp

variable {c : Cpu} {m : ℕ → UInt8} {n s d cs ct cl tl count : ℕ}

/-- A character of one string is loaded, and compared with one of the other. -/
theorem compareByte_exec (h : Moving c m n s d) :
    let c' := [.lodsb, .scasb].foldl Op.exec c
    Moving c' m n ((s + 1) % 2 ^ 32) ((d + 1) % 2 ^ 32) ∧ c'.al = (m (s % 2 ^ 32)).toNat ∧
    c'.zf = decide (m (s % 2 ^ 32) = m (d % 2 ^ 32)) ∧
    c'.cf = decide (m (s % 2 ^ 32) < m (d % 2 ^ 32)) := by
  refine ⟨⟨?_, ?_, ?_, ?_, h.df⟩, ?_, ?_, ?_⟩
  · simp [Op.exec, Cpu.lodsb, Cpu.scasb, Cpu.set, Cpu.see, Cpu.byteFlags, h.ecx]
  · simp [Op.exec, Cpu.lodsb, Cpu.scasb, Cpu.set, Cpu.see, Cpu.byteFlags, Cpu.advance, h.esi, h.df]
  · simp [Op.exec, Cpu.lodsb, Cpu.scasb, Cpu.set, Cpu.see, Cpu.advance, h.edi, h.df]
  · exact h.mem
  · simp [Op.exec, Cpu.lodsb, Cpu.scasb, Cpu.set, Cpu.see, Cpu.byteFlags, Cpu.al, Cpu.byte, h.esi, h.mem]
  · simp [Op.exec, Cpu.lodsb, Cpu.scasb, Cpu.set, Cpu.see, Cpu.byteFlags, Cpu.al, Cpu.byte, h.esi, h.edi,
      h.mem, UInt8.toNat_inj]
  · simp [Op.exec, Cpu.lodsb, Cpu.scasb, Cpu.set, Cpu.see, Cpu.byteFlags, Cpu.al, Cpu.byte, h.esi, h.edi,
      h.mem, UInt8.lt_iff_toNat_lt]

/-- Label 4. -/
theorem strncmp_end {Q : Cpu → Prop} (h : Q c) : Halts strncmpText 14 c Q := .label rfl (.done rfl h)

/-- Label 2. -/
theorem strncmp_same (c : Cpu) : Halts strncmpText 8 c fun c' =>
    (int32 (c'.reg .eax), c'.mem) = (0, c.mem) := by
  refine .label rfl (.op rfl (.taken rfl rfl rfl (strncmp_end ?_)))
  have heax : (Op.exec c (.alu .xor (.reg .eax) .eax)).reg .eax = 0 := by
    simp [Op.exec, Cpu.set, Cpu.val, Alu.result]
  rw [heax, int32_of_lt (by decide)]
  rfl

/-- Label 3: the borrow of the comparison is the sign. -/
theorem strncmp_differs (c : Cpu) : Halts strncmpText 11 c fun c' =>
    (int32 (c'.reg .eax), c'.mem) = (if c.cf then -1 else 1, c.mem) := by
  have hborrow : sub32 (c.reg .eax) (c.reg .eax + 1) = 0xffffffff := by
    rw [sub32]
    omega
  have hnone : sub32 (c.reg .eax) (c.reg .eax) = 0 := by
    rw [sub32]
    omega
  have hint : int32 0xffffffff = -1 := by
    unfold int32
    split_ifs <;> omega
  have heax : (Op.exec (Op.exec c (.alu .sbb (.reg .eax) .eax)) (.orAl 1)).reg .eax =
      if c.cf then 0xffffffff else 1 := by
    cases hcf : c.cf <;>
      simp [Op.exec, Cpu.set, Cpu.flags, Cpu.val, Cpu.al, Alu.result, hcf, hnone, hborrow]
  refine .label rfl (.op rfl (.op rfl (strncmp_end ?_)))
  rw [heax, apply_ite int32, hint, int32_of_lt (by decide)]
  rfl

/-- **The text follows the generic loop**, below the sign bit. -/
theorem strncmp_halts : ∀ {count cs ct : ℕ} {c : Cpu}, count ≤ 2 ^ 31 →
    Moving c m count (cs % 2 ^ 32) (ct % 2 ^ 32) →
    Halts strncmpText 0 c fun c' => (int32 (c'.reg .eax), c'.mem) = (strncmp m cs ct count, m)
  | 0, cs, ct, c, _, h => by
      obtain ⟨h₁, hsf⟩ := dec_exec h
      refine .label rfl (.op rfl (.taken rfl (hsf.trans (by decide)) rfl ?_))
      rw [strncmp, ← h₁.mem]
      exact strncmp_same _
  | count + 1, cs, ct, c, hcount, h => by
      have hpred : sub32 (count + 1) 1 = count := sub32_of_le (by omega) (by omega)
      obtain ⟨h₁, hsf⟩ := dec_exec h
      rw [hpred] at h₁ hsf
      obtain ⟨h₂, hal, hzf, hcf⟩ := compareByte_exec h₁
      rw [Nat.mod_add_mod, Nat.mod_add_mod] at h₂
      rw [Nat.mod_mod] at hal hzf hcf
      rw [Nat.mod_mod] at hzf hcf
      refine .label rfl (.op rfl (.passed rfl (hsf.trans (decide_eq_false (by omega)))
        (.op rfl (.op rfl ?_))))
      change Halts strncmpText 5 (([.lodsb, .scasb] : List Op).foldl Op.exec _) _
      generalize ([.lodsb, .scasb] : List Op).foldl Op.exec (Op.exec c (.dec .ecx)) = c₂ at *
      by_cases hsame : m (cs % 2 ^ 32) = m (ct % 2 ^ 32)
      · rw [decide_eq_true hsame] at hzf
        have htest : Moving (Op.exec c₂ .testAl) m count ((cs + 1) % 2 ^ 32) ((ct + 1) % 2 ^ 32) :=
          ⟨h₂.ecx, h₂.esi, h₂.edi, h₂.mem, h₂.df⟩
        have hnul : Cond.ne.holds (Op.exec c₂ .testAl) = !decide ((m (cs % 2 ^ 32)).toNat = 0) := by
          rw [← hal]
          rfl
        refine .passed rfl (by rw [Cond.holds, hzf, Bool.not_true]) (.op rfl ?_)
        by_cases h₀ : m (cs % 2 ^ 32) = 0
        · have hgen : strncmp m cs ct (count + 1) = 0 := by
            rw [strncmp, if_neg (not_not.mpr hsame), if_pos h₀]
          refine .passed rfl (hnul.trans (by rw [h₀]; rfl)) ?_
          rw [hgen, ← htest.mem]
          exact strncmp_same _
        · have hgen : strncmp m cs ct (count + 1) = strncmp m (cs + 1) (ct + 1) count := by
            rw [strncmp, if_neg (not_not.mpr hsame), if_neg h₀]
          have hpos : (m (cs % 2 ^ 32)).toNat ≠ 0 := fun h => h₀ (UInt8.toNat_inj.mp h)
          refine .taken rfl (hnul.trans (by rw [decide_eq_false hpos, Bool.not_false])) rfl ?_
          rw [hgen]
          exact strncmp_halts (by omega) htest
      · rw [decide_eq_false hsame] at hzf
        have hgen : strncmp m cs ct (count + 1) = if c₂.cf then -1 else 1 := by
          rw [strncmp, if_pos hsame, hcf]
          simp only [decide_eq_true_eq]
        refine .taken rfl (by rw [Cond.holds, hzf, Bool.not_false]) rfl ?_
        rw [hgen, ← h₂.mem]
        exact strncmp_differs c₂

/-- **`strncmp` agrees** for a limit whose predecessor is not negative, or on strings that do not
differ. -/
theorem strncmp_agrees_iff (hdf : c.df = false) (hcs : CString c.mem cs cl) (hct : CString c.mem ct tl)
    (hlt : count < 2 ^ 32) :
    (∃ r, (∃ fuel, String32.strncmp c fuel cs ct count = .ok (r, c.mem)) ∧
      r.sign = (strncmp c.mem cs ct count).sign) ↔
    count ≤ 2 ^ 31 ∨ ∀ i < count, textAt c.mem cs cl i = textAt c.mem ct tl i := by
  have hentry : Moving (((c.set .esi cs).set .edi ct).set .ecx count) c.mem count cs ct :=
    ⟨rfl, rfl, rfl, rfl, hdf⟩
  have hfits := hcs.fits
  have hfits' := hct.fits
  rcases le_or_gt count (2 ^ 31) with hcount | hcount
  · have hhalts := strncmp_halts hcount (hentry.mod (by omega) (by omega))
    exact iff_of_true ⟨_, hhalts.returns_iff.mpr rfl, rfl⟩ (Or.inl hcount)
  · have hhalts : Halts strncmpText 0 (((c.set .esi cs).set .edi ct).set .ecx count) fun c' =>
        (int32 (c'.reg .eax), c'.mem) = (0, c.mem) := by
      obtain ⟨h₁, hsf⟩ := dec_exec hentry
      rw [sub32_of_le hlt (by omega)] at hsf
      exact .label rfl (.op rfl (.taken rfl (hsf.trans (decide_eq_true (by omega))) rfl
        (strncmp_same _)))
    have hasm : ∀ {r}, (∃ fuel, String32.strncmp c fuel cs ct count = .ok (r, c.mem)) ↔ 0 = r :=
      hhalts.returns_iff.trans Prod.mk_left_inj
    simp only [hasm, exists_eq_left']
    rw [or_iff_right (not_le.mpr hcount), ← strncmp_eq_zero_iff hcs hct, Int.sign_zero, eq_comm,
      Int.sign_eq_zero_iff_zero]

end Strncmp

/-! ## `strnlen` -/

section Strnlen

variable {c : Cpu} {m : ℕ → UInt8} {s i j l count : ℕ}

/-- `i` characters have been counted, and the limit is `j`. -/
structure Counting (c : Cpu) (m : ℕ → UInt8) (s i j : ℕ) : Prop where
  ecx : c.reg .ecx = s
  eax : c.reg .eax = s + i
  edx : c.reg .edx = j
  mem : c.mem = m

/-- Label 3. -/
theorem strnlen_end (h : Counting c m s i j) (hi : s + i < 2 ^ 32) : Halts strnlenText 10 c fun c' =>
    (c'.reg .eax, c'.mem) = (i, m) := by
  refine .label rfl (.op rfl (.done rfl ?_))
  have heax : (Op.exec c (.alu .sub (.reg .ecx) .eax)).reg .eax = i := by
    have hsub : sub32 (s + i) s = i := by
      rw [sub32_of_le hi (by omega), Nat.add_sub_cancel_left]
    rw [← hsub, ← h.eax, ← h.ecx]
    rfl
  rw [heax, ← h.mem]
  rfl

/-- The limit is decremented, and compared with −1. -/
theorem limit_exec (h : Counting c m s i j) :
    let c' := Op.exec (Op.exec c (.dec .edx)) (.alu .cmp (.imm 0xffffffff) .edx)
    Counting c' m s i (sub32 j 1) ∧ Cond.ne.holds c' = !decide (sub32 (sub32 j 1) 0xffffffff = 0) := by
  rw [← h.edx]
  exact ⟨⟨h.ecx, h.eax, rfl, h.mem⟩, rfl⟩

/-- The next character is compared with the NUL. -/
theorem nul_exec (h : Counting c m s i j) (hi : s + i < 2 ^ 32) :
    let c' := Op.exec c (.cmpb 0 ⟨.eax, none, 0⟩)
    Counting c' m s i j ∧ Cond.e.holds c' = decide (m (s + i) = 0) := by
  have hea : c.ea ⟨.eax, none, 0⟩ = s + i := by
    have hcast : c.ea ⟨.eax, none, 0⟩ = u32 ((c.reg .eax : ℤ) + 0 + 0) := rfl
    rw [hcast, h.eax, add_zero, add_zero, u32_natCast hi]
  refine ⟨⟨h.ecx, h.eax, h.edx, h.mem⟩, ?_⟩
  have hzf : Cond.e.holds (Op.exec c (.cmpb 0 ⟨.eax, none, 0⟩)) =
      decide (c.byte (c.ea ⟨.eax, none, 0⟩) = 0) := rfl
  rw [hzf, hea, Cpu.byte, Nat.mod_eq_of_lt hi, h.mem]
  exact decide_eq_decide.mpr (UInt8.toNat_inj (b := 0))

theorem inc_exec (h : Counting c m s i j) (hi : s + i + 1 < 2 ^ 32) :
    Counting (Op.exec c (.inc .eax)) m s (i + 1) j := by
  refine ⟨h.ecx, ?_, h.edx, h.mem⟩
  rw [← Nat.add_assoc, ← Nat.mod_eq_of_lt hi, ← h.eax]
  rfl

/-- **`strnlen` counts the characters, up to the limit.** -/
theorem strnlen_halts (hs : CString m s l) : ∀ {j i : ℕ} {c : Cpu}, i ≤ l → j < 2 ^ 32 →
    Counting c m s i j →
    Halts strnlenText 6 c fun c' => (c'.reg .eax, c'.mem) = (min (i + j) l, m)
  | 0, i, c, hi, _, h => by
      have hfits := hs.fits
      obtain ⟨h₁, hne⟩ := limit_exec h
      rw [Nat.add_zero, Nat.min_eq_left hi]
      exact .label rfl (.op rfl (.op rfl (.passed rfl (hne.trans (by decide))
        (strnlen_end h₁ (by omega)))))
  | j + 1, i, c, hi, hj, h => by
      have hfits := hs.fits
      obtain ⟨h₁, hne⟩ := limit_exec h
      have hpred : sub32 (j + 1) 1 = j := sub32_of_le hj (by omega)
      have hlimit : sub32 j 0xffffffff ≠ 0 := by
        rw [sub32]
        omega
      rw [hpred] at h₁ hne
      refine .label rfl (.op rfl (.op rfl (.taken rfl (hne.trans (by rw [decide_eq_false hlimit]; rfl))
        rfl (.label rfl (.op rfl ?_)))))
      obtain ⟨h₂, he⟩ := nul_exec h₁ (by omega)
      by_cases hend : i < l
      · refine .passed rfl (he.trans (decide_eq_false (hs.text i hend))) (.op rfl ?_)
        have h₃ := strnlen_halts hs hend (by omega) (inc_exec h₂ (by omega))
        exact h₃.mono fun c' h => by rw [h, Nat.succ_add_eq_add_succ]
      · obtain rfl : i = l := by omega
        rw [Nat.min_eq_right (by omega)]
        exact .taken rfl (he.trans (decide_eq_true hs.nul)) rfl (strnlen_end h₂ hfits)

/-- **`strnlen` agrees** for every limit. -/
theorem strnlen_agrees (hs : CString c.mem s l) (hlt : count < 2 ^ 32) : ∃ fuel,
    String32.strnlen c fuel s count =
      .ok (strnlen (fun i => c.mem ((s + i) % 2 ^ 32)) count 0, c.mem) := by
  have hentry : Counting (Op.exec ((c.set .ecx s).set .edx count) (.mov (.reg .ecx) .eax)) c.mem s 0
      count := ⟨rfl, rfl, rfl, rfl⟩
  have hhalts : Halts strnlenText 0 ((c.set .ecx s).set .edx count) fun c' =>
      (c'.reg .eax, c'.mem) = (min (0 + count) l, c.mem) :=
    .op rfl (.taken rfl rfl rfl (strnlen_halts hs (Nat.zero_le l) hlt hentry))
  rw [hs.strnlen_from (Nat.zero_le l)]
  exact hhalts.returns_iff.mpr rfl

end Strnlen

/-! ## Agreement -/

/-- **The length-limited functions agree with the generic ones** exactly when the sign of the decremented
limit does not end the loop at once — or nothing was to be done — and, for `strncat`, the NUL it stores
behind the copied one changes nothing. -/
theorem string32_limited_agrees_iff {c : Cpu} (hdf : c.df = false) {count : ℕ} (hlt : count < 2 ^ 32) :
    (∀ {dest src sl : ℕ}, CString c.mem src sl → dest < 2 ^ 32 → dest + count ≤ 2 ^ 32 →
      BlocksApart dest count src (sl + 1) →
      ((∃ fuel, String32.strncpy c fuel dest src count = .ok (strncpy c.mem dest src count)) ↔
        count ≤ 2 ^ 31 ∨ ∀ i < count, c.mem (dest + i) = textAt c.mem src sl i)) ∧
    (∀ {g : Src} {dest src dl sl : ℕ}, g.Holds c [.esi, .edi, .eax, .ecx] count →
      CString c.mem dest dl → CString c.mem src sl → dest + dl + min count sl < 2 ^ 32 →
      BlocksApart (dest + dl) (min count sl + 1) src (sl + 1) →
      ((∃ r, (∃ fuel, String32.strncat g c fuel dest src = .ok r) ∧
          ∃ fuel, strncat fuel c.mem dest src count = .ok r) ↔
        (count ≤ 2 ^ 31 ∧ (count ≤ sl ∨ c.mem ((dest + dl + sl + 1) % 2 ^ 32) = 0)) ∨
          (2 ^ 31 < count ∧ sl = 0))) ∧
    (∀ {cs ct cl tl : ℕ}, CString c.mem cs cl → CString c.mem ct tl →
      ((∃ r, (∃ fuel, String32.strncmp c fuel cs ct count = .ok (r, c.mem)) ∧
          r.sign = (strncmp c.mem cs ct count).sign) ↔
        count ≤ 2 ^ 31 ∨ ∀ i < count, textAt c.mem cs cl i = textAt c.mem ct tl i)) ∧
    ∀ {s l : ℕ}, CString c.mem s l → ∃ fuel, String32.strnlen c fuel s count =
      .ok (strnlen (fun i => c.mem ((s + i) % 2 ^ 32)) count 0, c.mem) :=
  ⟨fun hs hd' hd hapart => strncpy_agrees_iff hdf hs hlt hd' hd hapart,
    fun hg hd hs hfits hapart => strncat_agrees_iff hg hdf hd hs hlt hfits hapart,
    fun hcs hct => strncmp_agrees_iff hdf hcs hct hlt, fun hs => strnlen_agrees hs hlt⟩

/-- `"a"` at `0x1000`, `"b"` at `0x2000`, and an empty string at `0x3000` with an `x` two bytes on. -/
def stringSample : Cpu :=
  ⟨fun _ => 0, false, false, false, false, fun x =>
    if x = 0x1000 then 97 else if x = 0x2000 then 98 else if x = 0x3002 then 120 else 0, []⟩

theorem stringSample_strings : CString stringSample.mem 0x1000 1 ∧ CString stringSample.mem 0x2000 1 ∧
    CString stringSample.mem 0x3000 0 :=
  ⟨⟨by decide, by decide, by decide, rfl⟩, ⟨by decide, by decide, by decide, rfl⟩,
    ⟨by decide, by decide, by decide, rfl⟩⟩

/-- `strncpy(0x4000, "a", 3)`, `strncat("b", "a", 3)`, `strncmp("a", "b", 3)` and `strnlen("a", 3)`. -/
theorem string32_limited_agrees_short :
    (∃ fuel, String32.strncpy stringSample fuel 0x4000 0x1000 3 =
      .ok (strncpy stringSample.mem 0x4000 0x1000 3)) ∧
    (∃ r, (∃ fuel, String32.strncat (.imm 3) stringSample fuel 0x2000 0x1000 = .ok r) ∧
      ∃ fuel, strncat fuel stringSample.mem 0x2000 0x1000 3 = .ok r) ∧
    (∃ r, (∃ fuel, String32.strncmp stringSample fuel 0x1000 0x2000 3 = .ok (r, stringSample.mem)) ∧
      r.sign = (strncmp stringSample.mem 0x1000 0x2000 3).sign) ∧
    ∃ fuel, String32.strnlen stringSample fuel 0x1000 3 =
      .ok (strnlen (fun i => stringSample.mem ((0x1000 + i) % 2 ^ 32)) 3 0, stringSample.mem) := by
  obtain ⟨hcpy, hcat, hcmp, hnlen⟩ :=
    string32_limited_agrees_iff (c := stringSample) rfl (show 3 < 2 ^ 32 by decide)
  obtain ⟨ha, hb, -⟩ := stringSample_strings
  have hg : (Src.imm 3).Holds stringSample [.esi, .edi, .eax, .ecx] 3 := rfl
  exact ⟨(hcpy ha (by decide) (by decide) (by decide)).mpr (Or.inl (by decide)),
    (hcat hg hb ha (by decide) (by decide)).mpr (Or.inl ⟨by decide, Or.inr (by decide)⟩),
    (hcmp ha hb).mpr (Or.inl (by decide)), hnlen ha⟩

/-- `strncmp("a", "b", (size_t)-1)` finds no difference, and `strncat("", "a", 5)` overwrites the `x`. -/
theorem string32_limited_disagrees :
    (¬∃ r, (∃ fuel, String32.strncmp stringSample fuel 0x1000 0x2000 0xffffffff =
        .ok (r, stringSample.mem)) ∧
      r.sign = (strncmp stringSample.mem 0x1000 0x2000 0xffffffff).sign) ∧
    ¬∃ r, (∃ fuel, String32.strncat (.imm 5) stringSample fuel 0x3000 0x1000 = .ok r) ∧
      ∃ fuel, strncat fuel stringSample.mem 0x3000 0x1000 5 = .ok r := by
  obtain ⟨ha, hb, hempty⟩ := stringSample_strings
  have hg : (Src.imm 5).Holds stringSample [.esi, .edi, .eax, .ecx] 5 := rfl
  refine ⟨fun h => ?_, fun h => ?_⟩
  · rcases (strncmp_agrees_iff rfl ha hb (by decide)).mp h with hle | hsame
    · exact absurd hle (by decide)
    · exact absurd (hsame 0 (by decide)) (by decide)
  · rcases (strncat_agrees_iff hg rfl hempty ha (by decide) (by decide) (by decide)).mp h with
      ⟨-, hle | hbehind⟩ | ⟨hlt, -⟩
    · exact absurd hle (by decide)
    · exact absurd hbehind (by decide)
    · exact absurd hlt (by decide)

end Sandix
