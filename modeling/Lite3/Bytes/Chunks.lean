import Mathlib.Data.List.Perm.Lattice
import Mathlib.Data.List.Perm.Subperm
import Mathlib.Data.List.Range
import Lite3.Bytes.Basic

/-! # Chunks of a byte arena

A bump arena is a byte vector together with the number of bytes handed out.
It owns a list of chunks when they lie apart from one another below that mark
and the vector holds their bytes; what lies beyond the mark is blank. A write
inside one chunk leaves every other one as it is.
-/

namespace Lite3.Bytes

structure Chunk where
  ofs : ℕ
  bytes : List UInt8

namespace Chunk

def stop (c : Chunk) : ℕ := c.ofs + c.bytes.length

def Apart (c d : Chunk) : Prop := c.stop ≤ d.ofs ∨ d.stop ≤ c.ofs

theorem Apart.symm {c d : Chunk} (h : Apart c d) : Apart d c := Or.symm h

end Chunk

open Chunk

structure Owned (data : List UInt8) (used : ℕ) (cs : List Chunk) : Prop where
  fits : used ≤ data.length
  below : ∀ c ∈ cs, c.stop ≤ used
  apart : cs.Pairwise Apart
  holds : ∀ c ∈ cs, slice (view data) c.ofs c.bytes.length = c.bytes
  blank : ∀ i, used ≤ i → view data i = 0

namespace Owned

variable {data bs : List UInt8} {used n k : ℕ} {c : Chunk} {cs cs' : List Chunk}

theorem perm (h : Owned data used cs) (hp : cs.Perm cs') : Owned data used cs' where
  fits := h.fits
  below c hc := h.below c (hp.mem_iff.mpr hc)
  apart := (hp.pairwise_iff Apart.symm).mp h.apart
  holds c hc := h.holds c (hp.mem_iff.mpr hc)
  blank := h.blank

theorem sublist (h : Owned data used cs) (hs : cs'.Sublist cs) : Owned data used cs' where
  fits := h.fits
  below c hc := h.below c (hs.subset hc)
  apart := h.apart.sublist hs
  holds c hc := h.holds c (hs.subset hc)
  blank := h.blank

theorem append_zeros (h : Owned data used cs) (n : ℕ) :
    Owned (data ++ List.replicate n 0) used cs where
  fits := by rw [List.length_append]; exact h.fits.trans (Nat.le_add_right _ _)
  below := h.below
  apart := h.apart
  holds c hc := by
    have hb : c.ofs + c.bytes.length ≤ used := h.below c hc
    have hf := h.fits
    rw [slice_append_left (by omega), h.holds c hc]
  blank i hi := by rw [view_grow, h.blank i hi]

theorem mono_used (h : Owned data used cs) (hn : used ≤ n) (hl : n ≤ data.length) :
    Owned data n cs where
  fits := hl
  below c hc := (h.below c hc).trans hn
  apart := h.apart
  holds := h.holds
  blank i hi := h.blank i (hn.trans hi)

theorem cons_of_apart (h : Owned data used cs) {o : ℕ} (hn : used ≤ n) (hl : n ≤ data.length)
    (ho : o + k ≤ n) (ha : ∀ c ∈ cs, o + k ≤ c.ofs ∨ c.stop ≤ o) :
    Owned data n (⟨o, slice (view data) o k⟩ :: cs) where
  fits := hl
  below := by
    intro c hc
    rcases List.mem_cons.mp hc with rfl | hc
    · simpa [stop] using ho
    · exact (h.below c hc).trans hn
  apart := by
    refine List.pairwise_cons.mpr ⟨fun c hc => ?_, h.apart⟩
    simpa [Apart, stop] using ha c hc
  holds := by
    intro c hc
    rcases List.mem_cons.mp hc with rfl | hc
    · simp
    · exact h.holds c hc
  blank i hi := h.blank i (hn.trans hi)

/-- The bytes right above the mark are a chunk of zeros. -/
theorem cons_zeros (h : Owned data used cs) (hl : used + k ≤ data.length) :
    Owned data (used + k) (⟨used, List.replicate k 0⟩ :: cs) := by
  have hz : slice (view data) used k = List.replicate k 0 :=
    ext_view (by simp) fun i hi => by
      rw [length_slice] at hi
      rw [view_slice _ _ hi, h.blank _ (by omega), view_replicate_zero]
  rw [← hz]
  exact h.cons_of_apart (by omega) hl le_rfl fun c hc => Or.inr (h.below c hc)

theorem write (h : Owned data used (c :: cs)) (hk : k + bs.length ≤ c.bytes.length) :
    Owned (overwrite data (c.ofs + k) bs) used (⟨c.ofs, overwrite c.bytes k bs⟩ :: cs) := by
  have hc : c.stop ≤ used := h.below c (by simp)
  have hf := h.fits
  have hstop : stop ⟨c.ofs, overwrite c.bytes k bs⟩ = c.stop := by simp [stop]
  have hap := List.pairwise_cons.mp h.apart
  refine ⟨by simpa using hf, ?_, ?_, ?_, ?_⟩
  · intro d hd
    rcases List.mem_cons.mp hd with rfl | hd
    · rwa [hstop]
    · exact h.below d (List.mem_cons_of_mem _ hd)
  · refine List.pairwise_cons.mpr ⟨fun d hd => ?_, hap.2⟩
    simpa [Apart, hstop] using hap.1 d hd
  · intro d hd
    rcases List.mem_cons.mp hd with rfl | hd
    · unfold stop at hc
      have := h.holds c (by simp)
      simp only [length_overwrite]
      rw [slice_overwrite_of_inside (by omega), this]
    · have hd' := hap.1 d hd
      unfold Apart stop at hd'
      rw [slice_overwrite_of_disjoint (by omega), h.holds d (List.mem_cons_of_mem _ hd)]
  · intro i hi
    unfold stop at hc
    rw [view_overwrite, if_neg (by omega), h.blank i hi]

/-- A write to any one of the chunks. -/
theorem write_at (xs ys : List Chunk) (h : Owned data used (xs ++ c :: ys))
    (hk : k + bs.length ≤ c.bytes.length) :
    Owned (overwrite data (c.ofs + k) bs) used
      (xs ++ ⟨c.ofs, overwrite c.bytes k bs⟩ :: ys) :=
  ((h.perm List.perm_middle).write hk).perm List.perm_middle.symm

theorem apart_of_mem {xs ys : List Chunk} {d : Chunk} (h : Owned data used (xs ++ ys))
    (hc : c ∈ xs) (hd : d ∈ ys) : Apart c d :=
  (List.pairwise_append.mp h.apart).2.2 c hc d hd

theorem length_le (h : Owned data used cs) (hne : ∀ c ∈ cs, c.bytes ≠ []) :
    cs.length ≤ used := by
  have hpos : ∀ c ∈ cs, 0 < c.bytes.length := fun c hc => List.length_pos_iff.mpr (hne c hc)
  have hnd : (cs.map Chunk.ofs).Nodup := by
    rw [List.Nodup, List.pairwise_map]
    refine h.apart.imp_of_mem fun hc hd ha => ?_
    have := hpos _ hc
    have := hpos _ hd
    unfold Apart stop at ha
    omega
  have hsub : cs.map Chunk.ofs ⊆ List.range used := by
    intro o ho
    obtain ⟨c, hc, rfl⟩ := List.mem_map.mp ho
    have := hpos c hc
    have := h.below c hc
    unfold stop at this
    exact List.mem_range.mpr (by omega)
  simpa using (hnd.subperm hsub).length_le

end Owned

end Lite3.Bytes
