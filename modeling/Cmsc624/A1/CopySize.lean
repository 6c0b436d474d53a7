import Cmsc624.A1.CopyRequest
import Mathlib.Algebra.Group.Nat.Defs
import Mathlib.Order.Bounds.Basic

/-!
# CopySize

`CopySize` computes the length of a copy apart from `CopyRequest`, and adds the two numbers of
words on 32 bits first. So it agrees with what `CopyRequest` writes only as long as this sum
does not wrap.
-/

namespace Cmsc624.A1

open Lib Lib.ByteMemory

set_option autoImplicit false

/-- `Request::CopySize`. -/
def copySize (L : Layout) (mem : ByteMemory) (req : Nat) : UInt64 :=
  let nf : UInt32 := UInt32.ofNat nfields
  let sz : UInt64 := UInt64.ofNat (roundup L.size 8)
  sz + 8 * (nf + UInt32.ofNat (L.numWritesAt mem req)).toUInt64

/-- `CopyRequest` writes byte `o` of the buffer: it leaves the same there whatever was there. -/
def WritesOffset (L : Layout) (mem : ByteMemory) (buf req o : Nat) : Prop :=
  ∃ b, ∀ v, ∃ mem', copyRequest L (Function.update mem (buf + o) v) buf req = some mem' ∧
    mem' (buf + o) = b

section Size
variable {L : Layout} {mem m : ByteMemory} {buf size req o : Nat}

theorem numWritesAt_lt (L : Layout) (mem : ByteMemory) (p : Nat) :
    L.numWritesAt mem p < 2 ^ 32 := by
  have hbyte : ∀ d ∈ List.ofFn fun b : Fin 4 => (mem (p + L.numWrites + b)).toNat, d < 256 := by
    intro d hd
    obtain ⟨b, rfl⟩ := List.mem_ofFn.mp hd
    exact UInt8.toNat_lt _
  have hlt := Nat.ofDigits_lt_base_pow_length (by decide : 1 < 256) hbyte
  rw [List.length_ofFn] at hlt
  exact hlt

/-- The words are counted modulo 2^32. -/
theorem copySize_toNat (L : Layout) (mem : ByteMemory) (req : Nat) :
    (copySize L mem req).toNat =
      (roundup L.size 8 + 8 * ((nfields + L.numWritesAt mem req) % 2 ^ 32)) % 2 ^ 64 := by
  have hlt := numWritesAt_lt L mem req
  have hnf : nfields < 2 ^ 32 := by decide
  have hword : (8 : UInt64).toNat = 8 := rfl
  simp only [copySize, UInt64.toNat_add, UInt64.toNat_mul, UInt64.toNat_ofNat', UInt32.toNat_add,
    UInt32.toNat_ofNat', UInt32.toNat_toUInt64]
  rw [Nat.mod_eq_of_lt hnf, Nat.mod_eq_of_lt hlt, hword]
  omega

theorem update_changedIn (mem : ByteMemory) (buf : Nat) (ho : o < size) (v : UInt8) :
    ChangedIn mem (Function.update mem (buf + o) v) ⟨buf, size⟩ := by
  intro a ha
  apply Function.update_of_ne
  intro heq
  rw [heq] at ha
  exact ha (Region.add_mem ho)

/-- What the buffer holds is no part of the request. -/
theorem Fits.regions_eq (h : Fits L mem buf size req) (hm : ChangedIn mem m ⟨buf, size⟩) :
    L.numWritesAt m req = L.numWritesAt mem req ∧ L.updatesAt m req = L.updatesAt mem req ∧
      L.regions m req = L.regions mem req := by
  have hmember := L.writeset_end
  have hsize := L.updates_end
  have hheader : Alike m mem req req L.size := (hm.agreeOn (h.unshared _ header_mem)).alike
  have hnum : L.numWritesAt m req = L.numWritesAt mem req :=
    numWritesAt_eq (hheader.mono (by omega))
  have hwriteset : L.writesetAt m req = L.writesetAt mem req :=
    writesetAt_eq (hheader.mono (by omega))
  have hupdates : L.updatesAt m req = L.updatesAt mem req := updatesAt_eq hheader
  refine ⟨hnum, hupdates, ?_⟩
  rw [Layout.regions, Layout.regions, Layout.writesetRegion, Layout.updatesRegion, hnum,
    hwriteset, hupdates]
  rfl

theorem Fits.congr (h : Fits L mem buf size req) (hm : ChangedIn mem m ⟨buf, size⟩) :
    Fits L m buf size req := by
  obtain ⟨hnum, _, hregions⟩ := h.regions_eq hm
  constructor
  · exact h.in_space
  · rw [extent, hnum]
    exact h.enough
  · rw [hregions]
    exact h.unshared

/-- The last byte of the extent is written. -/
theorem writesOffset_last (h : Fits L mem buf size req) :
    WritesOffset L mem buf req ((extent L mem buf req).size - 1) := by
  refine ⟨mem (L.updatesAt mem req + (8 * nfields - 1)), fun v => ?_⟩
  have hlast : (extent L mem buf req).size - 1 < size := by
    have henough := h.enough
    simp only [extent, nfields, recordSize, fieldSize] at henough ⊢
    omega
  have hm := update_changedIn mem buf hlast v
  obtain ⟨hnum, hupdates, _⟩ := h.regions_eq hm
  have hcopied := copy_updates (h.congr hm) (8 * nfields - 1) (by decide)
  have hkept := (hm.agreeOn (h.unshared _ updatesRegion_mem)).alike (8 * nfields - 1) (by decide)
  have hplace : buf + ((extent L mem buf req).size - 1) =
      updatesStart L mem buf req + (8 * nfields - 1) := by
    simp only [extent, updatesStart, writesetStart, nfields, recordSize, fieldSize]
    omega
  refine ⟨_, copyRequest_eq (h.congr hm), ?_⟩
  rw [hupdates, updatesStart, hnum, ← updatesStart, ← hplace] at hcopied
  exact hcopied.trans hkept

/-- No byte behind the extent is written. -/
theorem lt_of_writesOffset (h : Fits L mem buf size req) (ho : o < size)
    (hwrites : WritesOffset L mem buf req o) : o < (extent L mem buf req).size := by
  obtain ⟨b, hb⟩ := hwrites
  by_contra hbehind
  obtain ⟨v, hv⟩ : ∃ v : UInt8, v ≠ b := by
    by_cases h0 : b = 0
    · exact ⟨1, by rw [h0]; decide⟩
    · exact ⟨0, Ne.symm h0⟩
  have hm := update_changedIn mem buf ho v
  obtain ⟨mem', hcopy, hbyte⟩ := hb v
  obtain ⟨hnum, _, _⟩ := h.regions_eq hm
  rw [copyRequest_eq (h.congr hm)] at hcopy
  obtain rfl := Option.some.inj hcopy
  have houtside : buf + o ∉ extent L (Function.update mem (buf + o) v) buf req := by
    rw [Region.mem_iff]
    simp only [extent, hnum] at hbehind ⊢
    omega
  rw [updatesLinked_changedIn _ houtside, Function.update_self] at hbyte
  exact hv hbyte

theorem isGreatest_writes (h : Fits L mem buf size req) :
    IsGreatest {o | o < size ∧ WritesOffset L mem buf req o}
      ((extent L mem buf req).size - 1) := by
  have henough := h.enough
  have hpos : 0 < (extent L mem buf req).size := by
    simp only [extent, nfields, recordSize, fieldSize]
    omega
  constructor
  · exact ⟨by omega, writesOffset_last h⟩
  · intro o ho
    have hlt := lt_of_writesOffset h ho.1 ho.2
    omega

/-- `CopySize` is one past the last byte that `CopyRequest` writes, unless the sum of the two
numbers of words wraps; then it is 2^35 bytes less. -/
theorem copySize_exact_iff (h : Fits L mem buf size req) (hbuf : 0 < buf) :
    ((∃ last, IsGreatest {o | o < size ∧ WritesOffset L mem buf req o} last ∧
      (copySize L mem req).toNat = last + 1) ↔ L.numWritesAt mem req + nfields < 2 ^ 32) ∧
    (2 ^ 32 ≤ L.numWritesAt mem req + nfields →
      ∃ last, IsGreatest {o | o < size ∧ WritesOffset L mem buf req o} last ∧
        (copySize L mem req).toNat + 2 ^ 35 = last + 1) := by
  have hgreatest := isGreatest_writes h
  have hspace := h.in_space
  have henough := h.enough
  have hnum := numWritesAt_lt L mem req
  have hvalue := copySize_toNat L mem req
  have hsize : (extent L mem buf req).size =
      roundup L.size 8 + 8 * (L.numWritesAt mem req + nfields) := rfl
  have hnf : nfields = 10 := rfl
  rw [hnf] at hsize hvalue ⊢
  refine ⟨⟨?_, ?_⟩, ?_⟩
  · rintro ⟨last, hlast, heq⟩
    have hsame := hlast.unique hgreatest
    omega
  · intro hsmall
    exact ⟨_, hgreatest, by omega⟩
  · intro hwraps
    exact ⟨_, hgreatest, by omega⟩

end Size

theorem copySize_exact_one : Fits lp64 oneWrite 65536 120 4096 ∧ 0 < 65536 ∧
    ∃ last, IsGreatest {o | o < 120 ∧ WritesOffset lp64 oneWrite 65536 4096 o} last ∧
      (copySize lp64 oneWrite 4096).toNat = last + 1 := by
  have hfits : Fits lp64 oneWrite 65536 120 4096 := ⟨by decide, by decide, by decide⟩
  exact ⟨hfits, by decide, (copySize_exact_iff hfits (by decide)).1.mpr (by decide)⟩

/-- A request at 4096 with 2^32 - 10 keys, from 8192 on, and its updates at 4352. -/
def manyWrites : ByteMemory := fun a =>
  if a = 4108 then 246 else if a = 4109 then 255 else if a = 4110 then 255
  else if a = 4111 then 255 else if a = 4113 then 32 else if a = 4121 then 17 else 0

/-- `CopySize` has no room for the arrays of this request. -/
theorem copySize_wraps : Fits lp64 manyWrites (2 ^ 40) (2 ^ 35 + 32) 4096 ∧
    (copySize lp64 manyWrites 4096).toNat = 32 ∧
    ¬∃ last, IsGreatest {o | o < 2 ^ 35 + 32 ∧
        WritesOffset lp64 manyWrites (2 ^ 40) 4096 o} last ∧
      (copySize lp64 manyWrites 4096).toNat = last + 1 := by
  have hfits : Fits lp64 manyWrites (2 ^ 40) (2 ^ 35 + 32) 4096 :=
    ⟨by decide, by decide, by decide⟩
  have hvalue : (copySize lp64 manyWrites 4096).toNat = 32 := by decide
  refine ⟨hfits, hvalue, ?_⟩
  rintro ⟨last, hlast, heq⟩
  have hsame := hlast.unique (isGreatest_writes hfits)
  have hsize : (extent lp64 manyWrites (2 ^ 40) 4096).size = 2 ^ 35 + 32 := by decide
  omega

end Cmsc624.A1
