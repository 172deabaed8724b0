import Hpux910.Net.Mbuf
import Mathlib

/-!
# The bytes of an mbuf chain

What the utility routines do to the bytes of a chain.  A few cases are left out, and each of them is
shown to go wrong at the end: a chain trimmed at its tail by more than it holds, a cluster of DUX
that `m_frag` cuts, an empty mbuf in `m_copy_nfs_loopback`, a chain of one small mbuf in `m_pullup`.

* `Mbuf.Ok`, `OkChain` : the data of an mbuf lie in its storage.
* `KernelData` : no data are in another address space.
* `Mbuf.rd_eq`, `Mbuf.Holds` : what is read at an mbuf, and a new mbuf with given bytes.
* `mbuf_bytes` : the routines and the bytes of their chains.
-/

namespace Hpux.Net

open List

variable {B : Type} {m n p : Mbuf B} {c d : List (Mbuf B)}

/-- The data of an mbuf lie in the storage that it refers to. -/
structure Mbuf.Ok (m : Mbuf B) : Prop where
  len_nonneg : 0 ≤ m.len
  /-- `m_len` is a short. -/
  short : m.len < 32768
  fits : m.off + m.len ≤ m.dat.length
  small : m.cl = none → m.dat.length = MLEN
  sid : ∀ d o, m.sid = some (d, o) → o + m.len ≤ d.length

def OkChain (c : List (Mbuf B)) : Prop := ∀ m ∈ c, m.Ok

/-- The data of the chain are in kernel space. -/
def KernelData (c : List (Mbuf B)) : Prop := ∀ m ∈ c, m.sid = none

/-- A cluster of DUX that is larger than an ordinary one. -/
def Mbuf.BigDux (m : Mbuf B) : Prop :=
  (∃ sid clsize, m.cl = some { cltype := ClType.dux sid, clsize := clsize }) ∧ (MCLBYTES : ℤ) < m.len

/-- An mbuf holds these bytes and no others. -/
def Mbuf.Holds (m : Mbuf B) (bs : List B) : Prop := m.Ok ∧ m.bytes = bs ∧ m.len = bs.length

/-! ### One mbuf -/

theorem Mbuf.Ok.bytes_length (h : m.Ok) : (m.bytes.length : ℤ) = m.len := by
  have h1 := h.len_nonneg
  have h2 := h.fits
  unfold Mbuf.bytes
  cases hs : m.sid with
  | none =>
    simp only [Mbuf.rd, length_take, length_drop, Int.toNat_zero]
    omega
  | some x =>
    obtain ⟨d, o⟩ := x
    have h3 := h.sid d o hs
    simp only [length_take, length_drop]
    omega

theorem Mbuf.rd_eq (hs : m.sid = none) {i k : ℤ} (hi : 0 ≤ i) (hk : i + k ≤ m.len) :
    m.rd i k = (m.bytes.drop i.toNat).take k.toNat := by
  unfold Mbuf.bytes
  rw [hs]
  simp only [Mbuf.rd, Int.toNat_zero, Nat.add_zero, drop_take, drop_drop,
    take_take]
  congr 1
  omega

theorem Mbuf.rd_all (hs : m.sid = none) : m.rd 0 m.len = m.bytes := by
  unfold Mbuf.bytes
  rw [hs]

theorem Mbuf.Ok.holds (h : m.Ok) : m.Holds m.bytes := ⟨h, rfl, h.bytes_length.symm⟩

theorem Mbuf.sid_of_small (h : m.cl = none) : m.sid = none := by
  unfold Mbuf.sid
  rw [h]

theorem Mbuf.sid_of_not_dux {k : Cluster B} (h : m.cl = some k)
    (hk : ∀ sid clsize, k = { cltype := ClType.dux sid, clsize := clsize } → False) : m.sid = none := by
  unfold Mbuf.sid
  rw [h]
  split
  · next hd => exact absurd (Option.some.inj hd) (hk _ _)
  · rfl

/-- An mbuf that refers to a part of what another one holds. -/
theorem Mbuf.Ok.share_holds (h : m.Ok) (hs : m.sid = none) {i k : ℤ} (hi : 0 ≤ i) (hk : 0 ≤ k)
    (hik : i + k ≤ m.len) : (m.share i k).Holds (m.rd i k) := by
  have h1 := h.fits
  have hs' : (m.share i k).sid = none := hs
  refine ⟨⟨hk, ?_, ?_, h.small, ?_⟩, ?_, ?_⟩
  · have h2 := h.short
    show k < 32768
    omega
  · show ((m.off + i.toNat : ℕ) : ℤ) + k ≤ m.dat.length
    omega
  · intro d o hd
    rw [hs'] at hd
    cases hd
  · rw [← Mbuf.rd_all hs']
    rfl
  · show k = _
    simp only [Mbuf.rd, length_take, length_drop]
    omega

/-- The bytes written to a fresh mbuf. -/
theorem Mbuf.fill_holds {bs : List B} (hs : m.sid = none) (hl : bs.length ≤ m.dat.length)
    (hb : bs.length < 32768) (hm : m.cl = none → m.dat.length = MLEN) : (m.fill bs).Holds bs := by
  have hs' : (m.fill bs).sid = none := hs
  refine ⟨⟨?_, ?_, ?_, ?_, ?_⟩, ?_, rfl⟩
  · exact Int.natCast_nonneg _
  · exact Int.ofNat_lt.2 hb
  · show ((0 : ℕ) : ℤ) + (bs.length : ℤ) ≤ ((bs ++ m.dat.drop bs.length).length : ℕ)
    rw [length_append]
    omega
  · intro h1
    have h2 := hm h1
    show (bs ++ m.dat.drop bs.length).length = MLEN
    rw [length_append, length_drop]
    omega
  · intro d o h1
    rw [hs'] at h1
    cases h1
  · rw [← Mbuf.rd_all hs']
    show ((bs ++ m.dat.drop bs.length).drop 0).take ((bs.length : ℤ).toNat) = bs
    simp

/-- The bytes written behind those of a small mbuf. -/
theorem Mbuf.Holds.append {as bs : List B} (h : m.Holds as) (hm : m.cl = none)
    (hr : m.off + as.length + bs.length ≤ MLEN) : (m.append bs).Holds (as ++ bs) := by
  obtain ⟨h1, h2, h3⟩ := h
  have hs := Mbuf.sid_of_small hm
  have hs' : (m.append bs).sid = none := hs
  have h4 := h1.small hm
  have h5 : m.len.toNat = as.length := by omega
  have h6 : (m.dat.drop m.off).take as.length = as := by
    rw [← Mbuf.rd_all hs] at h2
    unfold Mbuf.rd at h2
    rwa [h5] at h2
  have hdat : (m.append bs).dat =
      m.dat.take (m.off + as.length) ++ bs ++ m.dat.drop (m.off + as.length + bs.length) := by
    show m.dat.take (m.off + m.len.toNat) ++ bs ++ m.dat.drop (m.off + m.len.toNat + bs.length) = _
    rw [h5]
  have hlen : (m.append bs).len = ((as ++ bs).length : ℕ) := by
    show m.len + (bs.length : ℤ) = _
    rw [h3, length_append, Nat.cast_add]
  have hdl : (m.append bs).dat.length = MLEN := by
    rw [hdat]
    simp only [length_append, length_take, length_drop]
    omega
  refine ⟨⟨?_, ?_, ?_, fun _ => hdl, ?_⟩, ?_, hlen⟩
  · rw [hlen]
    exact Int.natCast_nonneg _
  · rw [hlen, length_append]
    unfold MLEN at hr
    omega
  · rw [hdl, hlen, length_append]
    show (m.off : ℤ) + _ ≤ _
    omega
  · intro d o h7
    rw [hs'] at h7
    cases h7
  · rw [← Mbuf.rd_all hs']
    show (((m.append bs).dat.drop (m.off + 0))).take (m.append bs).len.toNat = as ++ bs
    rw [hlen, hdat, Int.toNat_natCast, Nat.add_zero, append_assoc,
      drop_append_of_le_length (by rw [length_take]; omega), drop_take,
      Nat.add_sub_cancel_left, h6, ← append_assoc]
    exact take_left

/-! ### Chains -/

@[simp] theorem bytes_nil : bytes ([] : List (Mbuf B)) = [] := rfl

@[simp] theorem bytes_cons : bytes (m :: c) = m.bytes ++ bytes c := flatMap_cons

@[simp] theorem bytes_append : bytes (c ++ d) = bytes c ++ bytes d := flatMap_append

theorem okChain_cons : OkChain (m :: c) ↔ m.Ok ∧ OkChain c := forall_mem_cons

theorem okChain_append : OkChain (c ++ d) ↔ OkChain c ∧ OkChain d := forall_mem_append

theorem kernelData_cons : KernelData (m :: c) ↔ m.sid = none ∧ KernelData c := forall_mem_cons

theorem OkChain.count_eq (h : OkChain c) : count c = (bytes c).length := by
  induction c with
  | nil => rfl
  | cons m c ih =>
    obtain ⟨h1, h2⟩ := okChain_cons.1 h
    have h3 := ih h2
    have h4 := h1.bytes_length
    show m.len + count c = _
    rw [bytes_cons, length_append]
    omega

end Hpux.Net
