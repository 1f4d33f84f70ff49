import Sandix.Console.CursorRun
import Sandix.Console.Sequence

/-!
# Console/Attributes — the attribute of new characters along a stream

The colours a terminal should write with are a fold of the SGR parameters it has received: `SgrScan`
finds the parameters in the bytes, `Colours.apply` is what one of them means.  The console keeps the
colours, the attribute packed from them and the character that erases.  Only `csi_m` changes any of
them (`conStep_pen`), and its colours are the same fold (`csiM_colours`), but from black on black, which
`vgacon_init` leaves, where the attribute says grey on black; and `update_attribute` puts the attribute
into the low byte of the erase character.

* `followsSgr_iff` — after every byte of every stream the attribute and the erase character are the
  history's, exactly when every SGR sequence completed so far has left black on black.
-/

namespace Sandix

open Machinery Function

/-! ## The history -/

/-- Foreground, background and blink. -/
@[ext] structure Colours where
  fg : ℕ
  bg : ℕ
  blink : ℕ
deriving DecidableEq, Repr

namespace Colours

/-- Grey on black, without blink. -/
def grey : Colours := ⟨7, 0, 0⟩

/-- Black on black, without blink. -/
def black : Colours := ⟨0, 0, 0⟩

/-- What one SGR parameter means. -/
def apply (k : Colours) (p : ℕ) : Colours :=
  if p = 0 then grey
  else if p = 5 then { k with blink := 1 }
  else if 30 ≤ p ∧ p ≤ 37 then { k with fg := p - 30 }
  else if 40 ≤ p ∧ p ≤ 47 then { k with bg := p - 40 }
  else if p = 38 then { k with fg := 7 }
  else if p = 48 then { k with bg := 0 }
  else k

/-- What a sequence of parameters means. -/
def applyAll (k : Colours) (ps : List ℕ) : Colours := ps.foldl apply k

/-- The attribute byte: `fg | bg << 4 | blink << 7`. -/
def attr (k : Colours) : ℕ := k.fg ||| k.bg <<< 4 ||| k.blink <<< 7

/-- The colours fit their bits. -/
def Fits (k : Colours) : Prop := k.fg < 8 ∧ k.bg < 8 ∧ k.blink < 2

end Colours

/-- A scanner for SGR sequences: plain text, after `ESC`, after `ESC [`, or inside a control sequence
with its parameters so far. -/
inductive SgrScan
  | text
  | esc
  | csi
  | params (done : List ℕ) (last : ℕ)
deriving DecidableEq, Repr

namespace SgrScan

/-- A byte among the parameters: a separator, of which there are at most fifteen, a digit, or the final
byte, which completes an SGR sequence if it is `m`. -/
def nextParam (done : List ℕ) (last c : ℕ) : SgrScan × Option (List ℕ) :=
  if c = 59 ∧ done.length < nPar - 1 then (params (done ++ [last]) 0, none)
  else if 48 ≤ c ∧ c ≤ 57 then (params done ((10 * last + (c - 48)) % 2 ^ 32), none)
  else (text, if c = 109 then some (done ++ [last]) else none)

/-- The scanner after a byte, and the parameters of the SGR sequence it completes. -/
def next (c : ℕ) : SgrScan → SgrScan × Option (List ℕ)
  | text => (if c = 27 then esc else text, none)
  | esc => (if c = 91 then csi else text, none)
  | csi => if c = 63 then (params [] 0, none) else nextParam [] 0 c
  | params done last => nextParam done last c

end SgrScan

/-- The colours after the SGR sequences completed so far, once there is one. -/
abbrev SgrHistory := Option Colours

/-- The colours to write with. -/
def SgrHistory.colours (h : SgrHistory) : Colours := h.getD Colours.grey

/-- One byte: the scanner, and the history with the sequence it completes. -/
def sgrStep (q : SgrScan × SgrHistory) (b : UInt8) : SgrScan × SgrHistory :=
  let r := q.1.next b.toNat
  (r.1, match r.2 with
    | some ps => some (q.2.colours.applyAll ps)
    | none => q.2)

/-- The history after a sequence of writes; an SGR sequence ends with its write at the latest. -/
def sgrHistoryFrom (h : SgrHistory) (bufs : List (List UInt8)) : SgrHistory :=
  bufs.foldl (fun h buf => (buf.foldl sgrStep (.text, h)).2) h

/-- The history of a sequence of writes. -/
def sgrHistory (bufs : List (List UInt8)) : SgrHistory := sgrHistoryFrom none bufs

/-- `Cut bufs' bufs`: the writes `bufs'` are `bufs` up to some byte. -/
inductive Cut : List (List UInt8) → List (List UInt8) → Prop
  | within {buf rest bufs} : Cut [buf] ((buf ++ rest) :: bufs)
  | after {buf bufs' bufs} : Cut bufs' bufs → Cut (buf :: bufs') (buf :: bufs)

/-- The attribute and the erase character are those of the colours. -/
def Follows (vc : VcStruct) (k : Colours) : Prop :=
  vc.attr = k.attr ∧ vc.erasedChar = (k.attr <<< 8 ||| 0x20)

/-! ## What only SGR changes -/

/-- The driver, and what `csi_m` sets. -/
def VcStruct.pen (vc : VcStruct) : Option ConDriver × ℕ × ℕ × Colours :=
  (vc.driver, vc.attr, vc.erasedChar, ⟨vc.fColor, vc.bColor, vc.blink⟩)

theorem gotoxy_pen (vc : VcStruct) (x y : ℕ) : (gotoxy vc x y).pen = vc.pen := by
  unfold gotoxy
  split_ifs <;> rfl

theorem lineFeed_pen (vga : VgaVars) (vc : VcStruct) : (lineFeed vga vc).1.pen = vc.pen := by
  simp only [lineFeed, scrdown, conScroll, vgaconScroll]
  split_ifs <;> rfl

theorem csiR_pen (vc : VcStruct) : (csiR vc).pen = vc.pen := by
  simp only [csiR]
  split_ifs
  · exact gotoxy_pen _ 0 0
  · rfl

theorem csiHandle_pen (vc : VcStruct) {c : ℕ} (hc : Char.ofNat c ≠ 'm') :
    (csiHandle vc c).1.pen = vc.pen := by
  have heffect := csiHandle_effect vc c
  generalize (csiHandle vc c).1 = v at heffect ⊢
  cases heffect with
  | keep => rfl
  | goto par x y => exact gotoxy_pen _ x y
  | sgr hm => exact absurd hm hc
  | region => exact csiR_pen vc
  | save => rfl
  | restore => rfl

theorem vtNormal_pen (vga : VgaVars) (vc : VcStruct) (c : ℕ) : (vtNormal vga vc c).1.pen = vc.pen := by
  simp only [vtNormal]
  split_ifs
  all_goals first
    | rfl
    | exact lineFeed_pen vga _

theorem vtEsc_pen (vga : VgaVars) (vc : VcStruct) (c : ℕ) : (vtEsc vga vc c).1.pen = vc.pen := by
  unfold vtEsc
  split
  all_goals first
    | rfl
    | exact lineFeed_pen vga vc
    | exact gotoxy_pen _ _ _

/-! ## What SGR does -/

/-- `csi_m` on the driver, the attribute, the erase character and the colours. -/
def sgrPen (pen : Option ConDriver × ℕ × ℕ × Colours) (ps : List ℕ) :
    Option ConDriver × ℕ × ℕ × Colours :=
  let k := pen.2.2.2.applyAll ps
  let attr := (k.fg &&& 0x7) ||| (k.bg &&& 0x7) * 2 ^ 4 ||| (k.blink &&& 0x1) * 2 ^ 7
  (pen.1, attr, ((pen.2.2.1 &&& 0xff) ||| attr) % 2 ^ 16, k)

/-- One parameter of `csi_m` means what an SGR parameter means. -/
theorem csiMPar_pen (vc : VcStruct) (p : ℕ) :
    (csiMPar vc p).pen =
      (vc.driver, vc.attr, vc.erasedChar, Colours.apply ⟨vc.fColor, vc.bColor, vc.blink⟩ p) := by
  unfold csiMPar Colours.apply
  by_cases h0 : p = 0
  · rw [if_pos h0, if_pos h0]
    rfl
  by_cases h1 : p = 1
  · subst h1
    rfl
  by_cases h4 : p = 4
  · subst h4
    rfl
  rw [if_neg h0, if_neg h1, if_neg h4, if_neg h0]
  split_ifs <;> rfl

/-- **What `csi_m` does**: the parameters are folded over the colours, and the attribute and the erase
character are made from them. -/
theorem csiM_pen (vc : VcStruct) :
    (csiM vc).pen = sgrPen vc.pen ((List.range (vc.npar + 1)).map vc.par) := by
  have hfold : ∀ (is : List ℕ) (v : VcStruct),
      (is.foldl (fun v i => csiMPar v (vc.par i)) v).pen =
        (v.driver, v.attr, v.erasedChar,
          Colours.applyAll ⟨v.fColor, v.bColor, v.blink⟩ (is.map vc.par)) := by
    intro is
    induction is with
    | nil => intro v; rfl
    | cons i is ih =>
      intro v
      have hpar := csiMPar_pen v (vc.par i)
      simp only [VcStruct.pen, Prod.mk.injEq] at hpar
      rw [List.foldl_cons, ih, hpar.1, hpar.2.1, hpar.2.2.1, hpar.2.2.2]
      rfl
  have hall := hfold (List.range (vc.npar + 1)) vc
  rw [csiM]
  generalize (List.range (vc.npar + 1)).foldl (fun v i => csiMPar v (vc.par i)) vc = v at hall ⊢
  simp only [VcStruct.pen, Prod.mk.injEq, Colours.ext_iff] at hall
  obtain ⟨hdriver, -, herased, hfg, hbg, hblink⟩ := hall
  simp only [updateAttribute, VcStruct.pen, sgrPen, hdriver, herased, hfg, hbg, hblink]

/-! ## The scanner of the console finds the same sequences -/

/-- The scanner of `con_write`, with the parameters it has stored, is where `SgrScan` is. -/
def Matches (t : Term) : SgrScan → Prop
  | .text => t.scan.state = .normal
  | .esc => t.scan.state = .esc
  | .csi => t.scan.state = .csiQuestion
  | .params done last => t.scan.state = .csiParameter ∧ t.scan.npar = done.length ∧
      done.length < nPar ∧ ∀ i < nPar, t.vc.par i = (done ++ [last])[i]?.getD 0

/-- The parameters one by one: those done, the last one, and zeros. -/
theorem getD_concat (done : List ℕ) (last i : ℕ) :
    (done ++ [last])[i]?.getD 0 =
      if i < done.length then done[i]?.getD 0 else if i = done.length then last else 0 := by
  split_ifs with hlt heq
  · rw [List.getElem?_append_left hlt]
  · rw [heq, List.getElem?_concat_length, Option.getD_some]
  · rw [List.getElem?_eq_none (by simp; omega), Option.getD_none]

/-- The parameters stored, in a list. -/
theorem map_par_eq {par : ℕ → ℕ} {done : List ℕ} {last : ℕ} (hlen : done.length < nPar)
    (hpar : ∀ i < nPar, par i = (done ++ [last])[i]?.getD 0) :
    (List.range (done.length + 1)).map par = done ++ [last] := by
  refine List.ext_getElem (by simp) fun i hi hi' => ?_
  have hi : i < done.length + 1 := by simpa using hi
  rw [List.getElem_map, List.getElem_range, hpar i (by omega), List.getElem?_eq_getElem hi',
    Option.getD_some]

/-- A byte among the parameters. -/
theorem vtCsiParameter_matches {vc : VcStruct} {done : List ℕ} {last : ℕ} (hlen : done.length < nPar)
    (hpar : ∀ i < nPar, vc.par i = (done ++ [last])[i]?.getD 0) (c : UInt8) :
    Matches (vtCsiParameter vc done.length c.toNat).1 (SgrScan.nextParam done last c.toNat).1 ∧
    (vtCsiParameter vc done.length c.toNat).1.vc.pen =
      match (SgrScan.nextParam done last c.toNat).2 with
      | none => vc.pen
      | some ps => sgrPen vc.pen ps := by
  have hsemi : Char.ofNat c.toNat = ';' ∧ done.length < nPar - 1 ↔
      c.toNat = 59 ∧ done.length < nPar - 1 := and_congr_left' (ofNat_toNat_eq_iff c ';')
  unfold vtCsiParameter SgrScan.nextParam
  by_cases hsep : c.toNat = 59 ∧ done.length < nPar - 1
  · rw [if_pos hsep, if_pos (hsemi.mpr hsep)]
    refine ⟨⟨rfl, by simp, by simp; omega, fun i hi => ?_⟩, rfl⟩
    rw [getD_concat (done ++ [last]), ← hpar i hi]
    split_ifs with hlt heq
    · rfl
    · rw [hpar i hi, heq, List.getElem?_eq_none le_rfl, Option.getD_none]
    · rw [hpar i hi, List.getElem?_eq_none (not_lt.mp hlt), Option.getD_none]
  rw [if_neg hsep, if_neg fun h => hsep (hsemi.mp h)]
  by_cases hdigit : 48 ≤ c.toNat ∧ c.toNat ≤ 57
  · rw [if_pos hdigit, if_pos hdigit]
    refine ⟨⟨rfl, rfl, hlen, fun i hi => ?_⟩, rfl⟩
    have hlast : vc.par done.length = last := by
      rw [hpar _ hlen, getD_concat, if_neg (lt_irrefl _), if_pos rfl]
    have hold := hpar i hi
    rw [getD_concat] at hold ⊢
    dsimp only
    rw [update_apply, hlast, hold]
    split_ifs with hi' <;> first | rfl | omega
  rw [if_neg hdigit, if_neg hdigit]
  refine ⟨rfl, ?_⟩
  by_cases hsgr : c.toNat = 109
  · have hmap : (List.range ((({ vc with npar := done.length } : VcStruct)).npar + 1)).map
        ({ vc with npar := done.length } : VcStruct).par = done ++ [last] := map_par_eq hlen hpar
    rw [if_pos hsgr, hsgr]
    change (csiM { vc with npar := done.length }).pen = _
    rw [csiM_pen, hmap]
    rfl
  · rw [if_neg hsgr]
    exact csiHandle_pen _ fun h => hsgr ((ofNat_toNat_eq_iff c 'm').mp h)

/-- **One byte**: the console's scanner stays where `SgrScan` is, and what SGR sets changes as it should,
when a sequence completes, or not at all. -/
theorem conStep_matches (vga : VgaVars) {t : Term} {s : SgrScan} (h : Matches t s) (c : UInt8) :
    Matches (conStep vga t c.toNat).1 (s.next c.toNat).1 ∧
    (conStep vga t c.toNat).1.vc.pen = match (s.next c.toNat).2 with
      | none => t.vc.pen
      | some ps => sgrPen t.vc.pen ps := by
  obtain ⟨vc, state, n⟩ := t
  cases s with
  | text =>
    obtain rfl : state = .normal := h
    refine ⟨?_, vtNormal_pen vga vc c.toNat⟩
    simp only [conStep, SgrScan.next]
    split_ifs <;> rfl
  | esc =>
    obtain rfl : state = .esc := h
    have hcsi : Char.ofNat c.toNat = '[' ↔ c.toNat = 91 := ofNat_toNat_eq_iff c '['
    simp only [conStep, SgrScan.next]
    by_cases hc : c.toNat = 91
    · rw [if_pos (hcsi.mpr hc), if_pos hc]
      exact ⟨rfl, rfl⟩
    · rw [if_neg fun hb => hc (hcsi.mp hb), if_neg hc]
      exact ⟨rfl, vtEsc_pen vga vc c.toNat⟩
  | csi =>
    obtain rfl : state = .csiQuestion := h
    have hq : Char.ofNat c.toNat = '?' ↔ c.toNat = 63 := ofNat_toNat_eq_iff c '?'
    have hclear : ∀ i < nPar, (clearPar vc).par i = ([] ++ [0] : List ℕ)[i]?.getD 0 := by
      intro i hi
      rw [getD_concat, clearPar]
      dsimp only
      rw [if_pos hi]
      simp
    simp only [conStep, SgrScan.next]
    by_cases hc : c.toNat = 63
    · rw [if_pos (hq.mpr hc), if_pos hc]
      exact ⟨⟨rfl, rfl, by decide, hclear⟩, rfl⟩
    · rw [if_neg fun hb => hc (hq.mp hb), if_neg hc]
      exact vtCsiParameter_matches (by decide) hclear c
  | params done last =>
    obtain ⟨hstate, hn, hlen, hpar⟩ := h
    obtain rfl : state = .csiParameter := hstate
    obtain rfl : n = done.length := hn
    exact vtCsiParameter_matches hlen hpar c

/-! ## Colours -/

namespace Colours

theorem apply_fits {k : Colours} (h : k.Fits) (p : ℕ) : (k.apply p).Fits := by
  obtain ⟨hfg, hbg, hblink⟩ := h
  unfold apply
  split_ifs
  · exact ⟨by decide, by decide, by decide⟩
  · exact ⟨hfg, hbg, one_lt_two⟩
  · exact ⟨by dsimp only; omega, hbg, hblink⟩
  · exact ⟨hfg, by dsimp only; omega, hblink⟩
  · exact ⟨Nat.lt_succ_self 7, hbg, hblink⟩
  · exact ⟨hfg, Nat.succ_pos 7, hblink⟩
  · exact ⟨hfg, hbg, hblink⟩

theorem applyAll_fits {k : Colours} (h : k.Fits) (ps : List ℕ) : (k.applyAll ps).Fits :=
  List.foldlRecOn ps apply h fun _ hk p _ => apply_fits hk p

/-- The masks of `update_attribute` do nothing. -/
theorem packed_eq {k : Colours} (h : k.Fits) :
    (k.fg &&& 0x7) ||| (k.bg &&& 0x7) * 2 ^ 4 ||| (k.blink &&& 0x1) * 2 ^ 7 = k.attr := by
  obtain ⟨hfg, hbg, hblink⟩ := h
  have hmask : ∀ {n : ℕ} (i : ℕ), n < 2 ^ i → n &&& (2 ^ i - 1) = n := fun i hn =>
    Nat.and_two_pow_sub_one_of_lt_two_pow hn
  rw [attr, Nat.shiftLeft_eq, Nat.shiftLeft_eq]
  exact congrArg₂ (· ||| ·) (congrArg₂ (· ||| ·) (hmask 3 hfg) (congrArg (· * 2 ^ 4) (hmask 3 hbg)))
    (congrArg (· * 2 ^ 7) (hmask 1 hblink))

theorem attr_lt {k : Colours} (h : k.Fits) : k.attr < 2 ^ 8 := by
  obtain ⟨hfg, hbg, hblink⟩ := h
  refine Nat.or_lt_two_pow (Nat.or_lt_two_pow (by omega) ?_) ?_
  · rw [Nat.shiftLeft_eq]
    omega
  · rw [Nat.shiftLeft_eq]
    omega

theorem attr_eq_zero_iff {k : Colours} : k.attr = 0 ↔ k = black := by
  obtain ⟨fg, bg, blink⟩ := k
  simp only [attr, black, Nat.or_eq_zero_iff, Nat.shiftLeft_eq, Colours.mk.injEq]
  omega

/-- Parameters that do not set the foreground leave it. -/
theorem applyAll_foreground : ∀ (ps : List ℕ) (f f' b l : ℕ),
    applyAll ⟨f, b, l⟩ ps = applyAll ⟨f', b, l⟩ ps ∨ (applyAll ⟨f, b, l⟩ ps).fg = f
  | [], _, _, _, _ => Or.inr rfl
  | p :: ps, f, f', b, l => by
      have hcons : ∀ k : Colours, k.applyAll (p :: ps) = (k.apply p).applyAll ps := fun _ => rfl
      rw [hcons, hcons]
      unfold apply
      split_ifs
      · exact Or.inl rfl
      · exact applyAll_foreground ps f f' b 1
      · exact Or.inl rfl
      · exact applyAll_foreground ps f f' (p - 40) l
      · exact Or.inl rfl
      · exact applyAll_foreground ps f f' 0 l
      · exact applyAll_foreground ps f f' b l

/-- What makes black of grey sets the foreground, and makes black of black. -/
theorem applyAll_black {ps : List ℕ} (h : grey.applyAll ps = black) : black.applyAll ps = black := by
  rcases applyAll_foreground ps 7 0 0 0 with heq | hfg
  · exact heq.symm.trans h
  · rw [show applyAll ⟨7, 0, 0⟩ ps = black from h] at hfg
    exact absurd hfg (by decide)

end Colours

/-! ## Along a run -/

/-- The console while every SGR sequence has left black on black: as `vgacon_init` left it, or black. -/
def PenInv (vc : VcStruct) (h : SgrHistory) : Prop :=
  (h = none ∧ vc.pen = (some .vga, 7, 0x720, Colours.black)) ∨
  (h = some Colours.black ∧ vc.pen = (some .vga, 0, 0x20, Colours.black))

theorem follows_iff {vc : VcStruct} {d : Option ConDriver} {a e : ℕ} {k k' : Colours}
    (h : vc.pen = (d, a, e, k)) : Follows vc k' ↔ a = k'.attr ∧ e = (k'.attr <<< 8 ||| 0x20) := by
  simp only [VcStruct.pen, Prod.mk.injEq] at h
  rw [Follows, h.2.1, h.2.2.1]

namespace PenInv

variable {vc : VcStruct} {h : SgrHistory}

theorem follows (hp : PenInv vc h) : Follows vc h.colours := by
  rcases hp with ⟨rfl, hpen⟩ | ⟨rfl, hpen⟩
  · exact (follows_iff hpen).mpr ⟨by decide, by decide⟩
  · exact (follows_iff hpen).mpr ⟨by decide, by decide⟩

theorem isBlack (hp : PenInv vc h) : ∀ k ∈ h, k = Colours.black := by
  rcases hp with ⟨rfl, -⟩ | ⟨rfl, -⟩
  · simp
  · simp

/-- The console is bound to the driver, its colours are black and the erase character is a blank. -/
theorem pen_eq (hp : PenInv vc h) :
    ∃ a e, vc.pen = (some .vga, a, e, Colours.black) ∧ e &&& 0xff = 0x20 := by
  rcases hp with ⟨-, hpen⟩ | ⟨-, hpen⟩
  · exact ⟨7, 0x720, hpen, by decide⟩
  · exact ⟨0, 0x20, hpen, by decide⟩

/-- **An SGR sequence completes**: the console follows exactly when it leaves black on black. -/
theorem sgr {vc' : VcStruct} {ps : List ℕ} (hp : PenInv vc h) (hpen : vc'.pen = sgrPen vc.pen ps) :
    (Follows vc' (h.colours.applyAll ps) ↔ h.colours.applyAll ps = Colours.black) ∧
    (h.colours.applyAll ps = Colours.black → PenInv vc' (some Colours.black)) := by
  obtain ⟨a, e, hold, hblank⟩ := hp.pen_eq
  have hfits : (Colours.black.applyAll ps).Fits :=
    Colours.applyAll_fits ⟨by decide, by decide, by decide⟩ ps
  have hlt := Colours.attr_lt hfits
  have hnew : vc'.pen = (some .vga, (Colours.black.applyAll ps).attr,
      0x20 ||| (Colours.black.applyAll ps).attr, Colours.black.applyAll ps) := by
    have hsmall : 0x20 ||| (Colours.black.applyAll ps).attr < 2 ^ 16 :=
      Nat.or_lt_two_pow (by decide) (by omega)
    rw [hpen, hold]
    simp only [sgrPen, Colours.packed_eq hfits, hblank, Nat.mod_eq_of_lt hsmall]
  have hblack : h.colours.applyAll ps = Colours.black →
      Colours.black.applyAll ps = Colours.black := by
    rcases hp with ⟨rfl, -⟩ | ⟨rfl, -⟩
    · exact Colours.applyAll_black
    · exact id
  refine ⟨⟨fun hf => ?_, fun hk => ?_⟩, fun hk => ?_⟩
  · obtain ⟨hattr, herased⟩ := (follows_iff hnew).mp hf
    have hsmall : 0x20 ||| (Colours.black.applyAll ps).attr < 2 ^ 8 :=
      Nat.or_lt_two_pow (by decide) hlt
    have hle : (h.colours.applyAll ps).attr <<< 8 ≤
        ((h.colours.applyAll ps).attr <<< 8 ||| 0x20) := Nat.left_le_or
    rw [Nat.shiftLeft_eq] at hle herased
    exact Colours.attr_eq_zero_iff.mp (by omega)
  · rw [hk]
    rw [hblack hk] at hnew
    exact (follows_iff hnew).mpr ⟨by decide, by decide⟩
  · rw [hblack hk] at hnew
    exact Or.inr ⟨rfl, hnew⟩

end PenInv

/-- **One byte**: the console follows the history after it exactly when the history is black, and then
the invariant holds again. -/
theorem conStep_follows_iff (vga : VgaVars) {t : Term} {q : SgrScan × SgrHistory} (hm : Matches t q.1)
    (hp : PenInv t.vc q.2) (b : UInt8) :
    (Follows (conStep vga t b.toNat).1.vc (sgrStep q b).2.colours ↔
      ∀ k ∈ (sgrStep q b).2, k = Colours.black) ∧
    ((∀ k ∈ (sgrStep q b).2, k = Colours.black) →
      Matches (conStep vga t b.toNat).1 (sgrStep q b).1 ∧
      PenInv (conStep vga t b.toNat).1.vc (sgrStep q b).2) := by
  obtain ⟨hm', hpen⟩ := conStep_matches vga hm b
  cases hdone : (q.1.next b.toNat).2 with
  | none =>
    have hstep : sgrStep q b = ((q.1.next b.toNat).1, q.2) := by simp only [sgrStep, hdone]
    rw [hdone] at hpen
    have hp' : PenInv (conStep vga t b.toNat).1.vc q.2 := by
      unfold PenInv
      rw [hpen]
      exact hp
    rw [hstep]
    exact ⟨iff_of_true hp'.follows hp'.isBlack, fun _ => ⟨hm', hp'⟩⟩
  | some ps =>
    have hstep : sgrStep q b = ((q.1.next b.toNat).1, some (q.2.colours.applyAll ps)) := by
      simp only [sgrStep, hdone]
    rw [hdone] at hpen
    obtain ⟨hiff, hinv⟩ := hp.sgr hpen
    have hall : (∀ k ∈ (some (q.2.colours.applyAll ps) : SgrHistory), k = Colours.black) ↔
        q.2.colours.applyAll ps = Colours.black := by simp
    rw [hstep, hall]
    exact ⟨hiff, fun hk => ⟨hm', hk ▸ hinv hk⟩⟩

/-- **One write**, byte by byte. -/
theorem conSteps_follows_iff (vga : VgaVars) : ∀ (bs : List UInt8) {t : Term}
    {q : SgrScan × SgrHistory}, Matches t q.1 → PenInv t.vc q.2 →
    ((∀ p, p <+: bs → Follows (conSteps vga t p).1.vc (p.foldl sgrStep q).2.colours) ↔
      ∀ p, p <+: bs → ∀ k ∈ (p.foldl sgrStep q).2, k = Colours.black) ∧
    ((∀ p, p <+: bs → ∀ k ∈ (p.foldl sgrStep q).2, k = Colours.black) →
      PenInv (conSteps vga t bs).1.vc (bs.foldl sgrStep q).2)
  | [], t, q, _, hp => by
      refine ⟨iff_of_true ?_ ?_, fun _ => hp⟩
      · intro p hpre
        rw [List.prefix_nil.mp hpre]
        exact hp.follows
      · intro p hpre
        rw [List.prefix_nil.mp hpre]
        exact hp.isBlack
  | b :: bs, t, q, hm, hp => by
      obtain ⟨hiff, hinv⟩ := conStep_follows_iff vga hm hp b
      -- the prefixes of `b :: bs` are the empty one and those that begin with `b`
      have hsplit : ∀ {P : List UInt8 → Prop}, P [] →
          ((∀ p, p <+: b :: bs → P p) ↔ ∀ p, p <+: bs → P (b :: p)) := by
        intro P hnil
        constructor
        · exact fun hall p hpre => hall (b :: p) ((List.prefix_cons_inj b).mpr hpre)
        · intro hall p hpre
          rcases List.prefix_cons_iff.mp hpre with rfl | ⟨p', rfl, hpre'⟩
          · exact hnil
          · exact hall p' hpre'
      rw [hsplit hp.follows, hsplit hp.isBlack]
      by_cases hblack : ∀ k ∈ (sgrStep q b).2, k = Colours.black
      · obtain ⟨hm', hp'⟩ := hinv hblack
        exact conSteps_follows_iff vga bs hm' hp'
      · refine ⟨iff_of_false (fun hall => ?_) (fun hall => ?_), fun hall => ?_⟩
        · exact hblack (hiff.mp (hall [] List.nil_prefix))
        · exact hblack (hall [] List.nil_prefix)
        · exact absurd (hall [] List.nil_prefix) hblack

/-- A write starts from plain text. -/
theorem conWrite_follows_iff {con : Console} {h : SgrHistory} (hp : PenInv con.vc h)
    (buf : List UInt8) :
    ((∀ p, p <+: buf → Follows (conWrite con p).2.vc (p.foldl sgrStep (.text, h)).2.colours) ↔
      ∀ p, p <+: buf → ∀ k ∈ (p.foldl sgrStep (.text, h)).2, k = Colours.black) ∧
    ((∀ p, p <+: buf → ∀ k ∈ (p.foldl sgrStep (.text, h)).2, k = Colours.black) →
      PenInv (conWrite con buf).2.vc (buf.foldl sgrStep (.text, h)).2) := by
  have hdriver : con.vc.driver ≠ none := by
    obtain ⟨a, e, hpen, -⟩ := hp.pen_eq
    rw [show con.vc.driver = some .vga from congrArg Prod.fst hpen]
    simp
  have hbytes := conSteps_follows_iff con.vga buf (t := ⟨con.vc, Scanner.start⟩) (q := (.text, h))
    rfl hp
  simpa only [conWrite_vc hdriver] using hbytes

/-- A run of writes, from any history. -/
theorem conRun_follows_iff : ∀ (bufs : List (List UInt8)) {con : Console} {h : SgrHistory},
    PenInv con.vc h →
    ((∀ bufs', Cut bufs' bufs → Follows (conRun con bufs').vc (sgrHistoryFrom h bufs').colours) ↔
      ∀ bufs', Cut bufs' bufs → ∀ k ∈ sgrHistoryFrom h bufs', k = Colours.black)
  | [], _, _, _ => by
      constructor <;> exact fun _ bufs' hcut => nomatch hcut
  | buf :: bufs, con, h, hp => by
      obtain ⟨hiff, hinv⟩ := conWrite_follows_iff hp buf
      -- a cut lies within the first write or after it
      have hsplit : ∀ {P : List (List UInt8) → Prop}, (∀ bufs', Cut bufs' (buf :: bufs) → P bufs') ↔
          (∀ p, p <+: buf → P [p]) ∧ ∀ bufs', Cut bufs' bufs → P (buf :: bufs') := by
        intro P
        constructor
        · refine fun hall => ⟨?_, fun bufs' hcut => hall _ (.after hcut)⟩
          rintro p ⟨rest, rfl⟩
          exact hall _ .within
        · rintro ⟨hin, hafter⟩ bufs' hcut
          cases hcut with
          | within => exact hin _ (List.prefix_append _ _)
          | after hcut => exact hafter _ hcut
      rw [hsplit, hsplit]
      by_cases hblack : ∀ p, p <+: buf → ∀ k ∈ (p.foldl sgrStep (.text, h)).2, k = Colours.black
      · exact and_congr hiff (conRun_follows_iff bufs (hinv hblack))
      · exact iff_of_false (fun hall => hblack (hiff.mp hall.1)) fun hall => hblack hall.1

/-! ## From boot -/

/-- `vgacon_init` leaves grey on black in the attribute and black on black in the colours. -/
theorem bootVc_penInv {si : ScreenInfo}
    (h : ¬ (si.origVideoMode = 0 ∧ si.origVideoLines = 0 ∧ si.origVideoCols = 0)) :
    PenInv (bootVc si) none := by
  have hstart : ¬ (VgaVars.zero.hasCalledStartup = true) := by decide
  refine Or.inl ⟨rfl, ?_⟩
  unfold bootVc vgaconInit bootVga vgaconStartup
  rw [if_neg hstart, if_neg h]
  rfl

/-- **The attribute along every stream.**  From the console that `vgacon_init` leaves on a screen whose
information was filled in: after every byte of every sequence of writes the attribute and the erase
character are those of the SGR history, exactly when every SGR sequence completed by then leaves black on
black without blink. -/
theorem followsSgr_iff {si : ScreenInfo}
    (h : ¬ (si.origVideoMode = 0 ∧ si.origVideoLines = 0 ∧ si.origVideoCols = 0))
    (mem crtc : ℕ → ℕ) (bufs : List (List UInt8)) :
    (∀ bufs', Cut bufs' bufs →
      Follows (conRun (bootConsole si mem crtc) bufs').vc (sgrHistory bufs').colours) ↔
    ∀ bufs', Cut bufs' bufs → ∀ k ∈ sgrHistory bufs', k = Colours.black :=
  conRun_follows_iff bufs (bootVc_penInv h)

/-- `ESC [ 3 0 m` leaves black on black, and so it is with the letter after it. -/
theorem followsSgr_letter :
    sgrHistory [[27, 91, 51, 48, 109, 65]] = some Colours.black ∧
    ∀ bufs', Cut bufs' [[27, 91, 51, 48, 109, 65]] →
      Follows (conRun (bootConsole vgaText (fun _ => 0) fun _ => 0) bufs').vc
        (sgrHistory bufs').colours := by
  have hall : ∀ buf ∈ ([27, 91, 51, 48, 109, 65] : List UInt8).inits, ∀ k ∈ sgrHistory [buf],
      k = Colours.black := by decide
  refine ⟨by decide, (followsSgr_iff (by decide) _ _ _).mpr fun bufs' hcut => ?_⟩
  generalize hbufs : [([27, 91, 51, 48, 109, 65] : List UInt8)] = bufs at hcut
  cases hcut with
  | @within buf rest bufs =>
    refine hall buf ((List.mem_inits _ _).mpr ⟨rest, ?_⟩)
    exact (List.cons.inj hbufs).1.symm
  | after hcut =>
    obtain ⟨-, rfl⟩ := List.cons.inj hbufs
    nomatch hcut

/-- `ESC [ 4 4 m` sets a blue background: the foreground goes black and the erase character is wrong. -/
theorem followsSgr_background :
    (bootVc vgaText).attr = 7 ∧
    ¬ ∀ bufs', Cut bufs' [[27, 91, 52, 52, 109]] →
      Follows (conRun (bootConsole vgaText (fun _ => 0) fun _ => 0) bufs').vc
        (sgrHistory bufs').colours := by
  refine ⟨by decide, fun hall => ?_⟩
  have hlast := (hall [[27, 91, 52, 52, 109]] (@Cut.within _ [] [])).1
  exact absurd hlast (by decide)

end Sandix
