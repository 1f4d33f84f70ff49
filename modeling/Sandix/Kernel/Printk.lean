import Sandix.Lib.FormatRun
import Sandix.Machinery.Bytes

/-!
# Kernel/Printk — from a message to the line discipline

`printk` of `kernel/printk.c`, with `tty_write` and `do_tty_write` of `drivers/tty/tty_io.c`.  The message
is formatted into `KMBUF`, a static array of 1024 bytes, and the count that goes with it to the terminal
is what `vsnprintf` returned: the length of the whole message, not of what was stored.

`do_tty_write` limits the count to its own buffer of 2048 bytes, and warns when it does: the warning is
printed by `printk` itself, through the same `KMBUF`.

* `printk_sends_iff` — the line discipline is handed the message, cut to 1023 characters, exactly when
  there was nothing to cut.
-/

namespace Sandix

open Machinery

/-- `sizeof(KMBUF)`. -/
abbrev kmbufSize : ℕ := 1024

/-- `TTY_WRITE_BUF_SIZE`, the value of `write_cnt`. -/
abbrev ttyWriteBufSize : ℕ := 2048

/-- Where things are: `KMBUF`, an array inside the address space, and the arguments of the warning of
`do_tty_write` — the names of its file and function, and a line. -/
structure PrintkSite where
  kmbuf : ℕ
  inside : kmbuf + kmbufSize < 2 ^ 32
  warnArgs : ℕ → UInt32

/-- The bytes of a string literal, as a format. -/
def warnFormat : FormatString :=
  ⟨"WARNING: at %s:%d/%s()!\n".toList.map ascii,
    FormatString.nonzero_of_all (by decide), by decide⟩

def prunedFormat : FormatString :=
  ⟨"tty_write: bytes pruned".toList.map ascii,
    FormatString.nonzero_of_all (by decide), by decide⟩

/-- What a call leaves: its value, memory, and what the line discipline's `write` was called with. -/
structure Printed where
  ret : ℤ
  mem : ℕ → UInt8
  sent : List (List UInt8)

section Printk

variable (site : PrintkSite) (m : ArgMemory)

/-- `printk`; `depth` bounds the calls it makes of itself. -/
def printk : ℕ → FormatString → (ℕ → UInt32) → (ℕ → UInt8) → Exec Printed
  | 0, _, _, _ => .error .fuel
  | depth + 1, f, args, mem => do
    let (len, mem) ← vsnprintf f args m mem site.kmbuf kmbufSize
    -- `do_tty_write`
    let count := u32 len
    if count > ttyWriteBufSize then
      let w₁ ← printk depth warnFormat site.warnArgs mem
      let w₂ ← printk depth prunedFormat (fun _ => 0) w₁.mem
      let mem := w₂.mem
      pure ⟨len, mem, w₁.sent ++ w₂.sent ++ [bytesAt mem site.kmbuf ttyWriteBufSize]⟩
    else pure ⟨len, mem, [bytesAt mem site.kmbuf count]⟩

variable {site m} {depth : ℕ} {f : FormatString} {args : ℕ → UInt32} {mem : ℕ → UInt8}

/-- A text that was stored is read back. -/
theorem bytesAt_blit {a : ℕ} {bs cs : List UInt8} (hfit : a + bs.length ≤ 2 ^ 32) :
    bytesAt (blit mem a (bs ++ cs)) a bs.length = bs := by
  unfold bytesAt
  refine List.ext_getElem (by rw [List.length_map, List.length_range]) fun i h₁ h₂ => ?_
  rw [List.getElem_map, List.getElem_range, blit, Nat.mod_eq_of_lt (by omega), if_pos (by omega),
    Nat.add_sub_cancel_left, List.getElem?_append_left h₂, List.getElem?_eq_getElem h₂]
  rfl

/-- The last write has as many bytes as the count says, up to 2048. -/
theorem printk_last {r : Printed} (h : printk site m (depth + 1) f args mem = .ok r) :
    ∃ before last, r.sent = before ++ [last] ∧
      last.length = min (u32 (int32 (formatText f args m).length)) ttyWriteBufSize := by
  obtain ⟨⟨len, mem'⟩, hvs, hlen, -⟩ := vsnprintf_returns f args m mem
    (show site.kmbuf < 2 ^ 32 from (Nat.le_add_right _ _).trans_lt site.inside)
    (show kmbufSize ≤ 2 ^ 31 - 1 by decide)
  dsimp only at hlen
  rw [printk, hvs, Exec.ok_bind] at h
  dsimp only at h
  rw [hlen] at h
  split_ifs at h with hcount
  · obtain ⟨w₁, -, h⟩ := Exec.bind_eq_ok.mp h
    obtain ⟨w₂, -, h⟩ := Exec.bind_eq_ok.mp h
    obtain rfl := Except.ok.inj h
    refine ⟨_, _, rfl, ?_⟩
    rw [length_bytesAt, Nat.min_eq_right hcount.le]
  · obtain rfl := Except.ok.inj h
    refine ⟨[], _, rfl, ?_⟩
    rw [length_bytesAt, Nat.min_eq_left (not_lt.mp hcount)]

/-- A message that fits is sent as it is. -/
theorem printk_of_fits (hfits : (formatText f args m).length < kmbufSize) :
    (printk site m (depth + 1) f args mem).Returns fun r => r.sent = [formatText f args m] := by
  have hinside := site.inside
  unfold kmbufSize at hfits hinside
  have hroom : bufferRoom site.kmbuf kmbufSize = kmbufSize := if_pos site.inside
  have hstored : truncated (formatText f args m) kmbufSize = formatText f args m ++ [0] := by
    rw [kmbufSize, truncated, List.take_of_length_le (by omega)]
  rw [printk, vsnprintf_eq mem (show kmbufSize ≤ 2 ^ 31 - 1 by decide) (by omega), Exec.ok_bind, hroom,
    hstored]
  dsimp only
  rw [int32_of_lt (by omega), u32_natCast (by omega), if_neg (by unfold ttyWriteBufSize; omega)]
  refine .ok ?_
  dsimp only
  rw [bytesAt_blit (by omega)]

theorem bytesAt_add (mem : ℕ → UInt8) (a n k : ℕ) :
    bytesAt mem a (n + k) = bytesAt mem a n ++ bytesAt mem (a + n) k := by
  unfold bytesAt
  rw [List.range_add, List.map_append, List.map_map]
  congr 1
  refine List.map_congr_left fun i _ => ?_
  rw [Function.comp_apply, Nat.add_assoc]

/-- Bytes after a text that was stored. -/
theorem bytesAt_after_blit {a : ℕ} {bs : List UInt8} (count : ℕ)
    (hfit : a + bs.length + count ≤ 2 ^ 32) :
    bytesAt (blit mem a bs) (a + bs.length) count = bytesAt mem (a + bs.length) count := by
  refine List.map_congr_left fun i hi => ?_
  have hlt := List.mem_range.mp hi
  rw [Nat.mod_eq_of_lt (by omega), blit, if_pos (by omega), List.getElem?_eq_none (by omega)]
  rfl

/-- **A message that does not fit** is sent up to and with its NUL, and what lies after `KMBUF` with it. -/
theorem printk_of_overruns (hlong : kmbufSize ≤ (formatText f args m).length)
    (hshort : (formatText f args m).length ≤ ttyWriteBufSize)
    (hfit : site.kmbuf + (formatText f args m).length < 2 ^ 32) :
    (printk site m (depth + 1) f args mem).Returns fun r =>
      r.sent = [(formatText f args m).take 1023 ++ [0] ++
        bytesAt mem (site.kmbuf + kmbufSize) ((formatText f args m).length - kmbufSize)] := by
  have hinside := site.inside
  have hroom : bufferRoom site.kmbuf kmbufSize = kmbufSize := if_pos hinside
  obtain ⟨n, hn⟩ := Nat.exists_eq_add_of_le hlong
  unfold ttyWriteBufSize at hshort
  rw [printk, vsnprintf_eq mem (show kmbufSize ≤ 2 ^ 31 - 1 by decide) hfit, Exec.ok_bind, hroom]
  dsimp only
  rw [int32_of_lt (by omega), u32_natCast (by omega), if_neg (by unfold ttyWriteBufSize; omega)]
  refine .ok (congrArg (fun b => [b]) ?_)
  -- `KMBUF` is full, with the NUL as its last byte
  obtain ⟨stored, hstored⟩ : ∃ bs, (formatText f args m).take 1023 ++ [0] = bs := ⟨_, rfl⟩
  have hlen : stored.length = kmbufSize := by
    rw [← hstored, List.length_append, List.length_take,
      Nat.min_eq_left ((by decide : 1023 ≤ 1024).trans hlong)]
    rfl
  have htrunc : truncated (formatText f args m) kmbufSize = stored := hstored
  have hread : bytesAt (blit mem site.kmbuf (stored ++ [])) site.kmbuf stored.length = stored :=
    bytesAt_blit (by rw [hlen]; exact hinside.le)
  have hafter : bytesAt (blit mem site.kmbuf stored) (site.kmbuf + stored.length) n
      = bytesAt mem (site.kmbuf + stored.length) n :=
    bytesAt_after_blit n (by rw [hlen]; omega)
  rw [List.append_nil, hlen] at hread
  rw [hlen] at hafter
  rw [htrunc, hstored, hn, Nat.add_sub_cancel_left, bytesAt_add, hread, hafter]

/-- **What the line discipline is handed.**  A message of at most 1023 characters reaches it whole.  A
longer one — short of the size of the address space — never reaches it as its first 1023 characters. -/
theorem printk_sends_iff (site : PrintkSite) (m : ArgMemory) (depth : ℕ) (f : FormatString)
    (args : ℕ → UInt32) (mem : ℕ → UInt8) (hlen : (formatText f args m).length < 2 ^ 32) :
    ((printk site m (depth + 1) f args mem).Returns fun r =>
      r.sent = [(formatText f args m).take 1023]) ↔ (formatText f args m).length ≤ 1023 := by
  constructor
  · rintro ⟨r, hr, hsent⟩
    obtain ⟨before, last, hlast, hcount⟩ := printk_last hr
    have hmatch : last = (formatText f args m).take 1023 := by
      have hend := congrArg List.getLast? (hsent.symm.trans hlast)
      simpa using hend.symm
    rw [hmatch, List.length_take, u32_int32 hlen] at hcount
    unfold ttyWriteBufSize at hcount
    omega
  · intro hfits
    refine (printk_of_fits (Nat.lt_succ_of_le hfits)).mono fun r hr => ?_
    rw [hr, List.take_of_length_le hfits]

end Printk

/-- The format `"%1024d"`. -/
def wideFormat : FormatString :=
  ⟨"%1024d".toList.map ascii, FormatString.nonzero_of_all (by decide), by decide⟩

/-- `KMBUF` somewhere in the kernel. -/
def sampleSite : PrintkSite := ⟨0xc1000000, by decide, fun _ => 0⟩

theorem length_wideFormat : (formatText wideFormat (fun _ => 0) zeroMemory).length = 1024 := by
  decide +kernel

/-- A message that fits. -/
theorem printk_sends_cpu :
    (printk sampleSite zeroMemory 1 cpuFormat (fun i => if i = 0 then 3 else 0xb8000)
      fun _ => 255).Returns fun r => r.sent = ["cpu 3 at 0xb8000".toList.map ascii] := by
  have hfits : (formatText cpuFormat (fun i => if i = 0 then 3 else 0xb8000) zeroMemory).length
      ≤ 1023 := by
    rw [formatText_cpu]
    decide
  have hsent := (printk_sends_iff sampleSite zeroMemory 0 cpuFormat
    (fun i => if i = 0 then 3 else 0xb8000) (fun _ => 255) (hfits.trans_lt (by decide))).mpr hfits
  rw [List.take_of_length_le hfits, formatText_cpu] at hsent
  exact hsent

/-- A message of 1024 characters: the NUL that ends `KMBUF` is sent in place of the last. -/
theorem printk_sends_nul :
    ¬(printk sampleSite zeroMemory 1 wideFormat (fun _ => 0) fun _ => 255).Returns fun r =>
      r.sent = [(formatText wideFormat (fun _ => 0) zeroMemory).take 1023] := by
  rintro ⟨r, hr, hsent⟩
  obtain ⟨r', hr', hsent'⟩ : (printk sampleSite zeroMemory 1 wideFormat (fun _ => 0) fun _ => 255).Returns
      fun r => r.sent = [_ ++ [0] ++ _] :=
    printk_of_overruns (by rw [length_wideFormat]) (by rw [length_wideFormat]; decide)
      (by rw [length_wideFormat]; decide)
  obtain rfl := Except.ok.inj (hr.symm.trans hr')
  have hbytes := (List.cons.inj (hsent.symm.trans hsent')).1
  have hlen := congrArg List.length hbytes
  simp only [List.length_append, List.length_singleton] at hlen
  omega

end Sandix
