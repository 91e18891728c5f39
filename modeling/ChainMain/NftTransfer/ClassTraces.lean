import ChainMain.NftTransfer.ReferencePlatform
import ChainMain.NftTransfer.Paths

/-!
# Raw class ids and their traces

`ParseClassTrace` cuts a raw class id at its last separator, and a trace without a path stands for
the base id alone. A raw id whose only separator is its first character is cut into an empty path
and a base, and is then taken for the base: the separator is lost (`leading_separator_lost`). Every
other raw id is recovered from its trace and has a class id of its own
(`class_traces_lossless_iff`).
-/

set_option autoImplicit false

namespace ChainMain.NftTransfer

open Foundations.Texts

variable {P : Platform} {U : Set Text} {raw raw' : Text}

/-- The only separator is the first character. -/
def OnlyLeads (raw : Text) : Prop := ∃ base, '/' ∉ base ∧ raw = '/' :: base

theorem not_onlyLeads_of_not_mem (h : '/' ∉ raw) : ¬ OnlyLeads raw := by
  rintro ⟨base, -, rfl⟩
  exact h List.mem_cons_self

/-- A raw id cut at its last separator leads with it only if nothing stands before it. -/
theorem onlyLeads_append {path base : Text} (h : '/' ∉ base) :
    OnlyLeads (path ++ '/' :: base) ↔ path = [] := by
  constructor
  · rintro ⟨base', hbase', heq⟩
    have hparse := parseClassTrace_append h path
    rw [heq, ← List.nil_append ('/' :: base'), parseClassTrace_append hbase'] at hparse
    exact (congrArg ClassTrace.path hparse).symm
  · rintro rfl
    exact ⟨base, h, rfl⟩

/-! ### One raw id -/

/-- A raw id is recovered from its trace unless its only separator leads. -/
theorem getFullClassPath_parseClassTrace_iff (raw : Text) :
    (parseClassTrace raw).getFullClassPath = raw ↔ ¬ OnlyLeads raw := by
  by_cases hslash : '/' ∈ raw
  · obtain ⟨path, base, hbase, rfl⟩ := exists_last_slash hslash
    rw [parseClassTrace_append hbase, onlyLeads_append hbase, ClassTrace.getFullClassPath]
    dsimp only
    split_ifs with hpath
    · subst hpath
      simp
    · simp [ClassTrace.getPrefix, hpath]
  · rw [parseClassTrace_of_not_mem hslash]
    exact iff_of_true rfl (not_onlyLeads_of_not_mem hslash)

/-- A raw id with a separator that does not lead is that of vouchers. -/
theorem classOf_of_mem (h : '/' ∈ raw) (hleads : ¬ OnlyLeads raw) :
    classOf P raw = voucherID P raw := by
  have hfull := (getFullClassPath_parseClassTrace_iff raw).mpr hleads
  obtain ⟨path, base, hbase, rfl⟩ := exists_last_slash h
  have hpath : path ≠ [] := (onlyLeads_append hbase).not.mp hleads
  rw [classOf, ClassTrace.ibcClassID, parseClassTrace_append hbase, if_pos hpath, ClassTrace.hash,
    ← parseClassTrace_append hbase, hfull, voucherID]

theorem classOf_cons {base : Text} (h : '/' ∉ base) : classOf P ('/' :: base) = classOf P base := by
  rw [classOf_of_not_mem h, classOf, ← List.nil_append ('/' :: base), parseClassTrace_append h]
  rfl

/-! ### Two raw ids -/

theorem eq_of_classOf_eq (hU : Set.InjOn P.sha256 U) (hraw : raw ∈ U) (hraw' : raw' ∈ U)
    (hleads : ¬ OnlyLeads raw) (hleads' : ¬ OnlyLeads raw') (h : classOf P raw = classOf P raw') :
    raw = raw' := by
  by_cases hslash : '/' ∈ raw
  · rw [classOf_of_mem hslash hleads] at h
    by_cases hslash' : '/' ∈ raw'
    · rw [classOf_of_mem hslash' hleads'] at h
      exact hU hraw hraw' (sha256_eq_of_voucherID_eq h)
    · rw [classOf_of_not_mem hslash'] at h
      exact absurd (h ▸ slash_mem_voucherID raw) hslash'
  · rw [classOf_of_not_mem hslash] at h
    by_cases hslash' : '/' ∈ raw'
    · rw [classOf_of_mem hslash' hleads'] at h
      exact absurd (h ▸ slash_mem_voucherID raw') hslash
    · rwa [classOf_of_not_mem hslash'] at h

/-- A raw id is recovered from its trace if and only if it is not one whose only separator leads.
Among the raw ids of a set on which the hash is injective, those that are recovered have different
class ids, and the others share theirs with a raw id that is recovered. -/
theorem class_traces_lossless_iff (hU : Set.InjOn P.sha256 U) :
    (∀ raw, (parseClassTrace raw).getFullClassPath = raw ↔ ¬ OnlyLeads raw) ∧
    (∀ raw ∈ U, ∀ raw' ∈ U, ¬ OnlyLeads raw → ¬ OnlyLeads raw' →
      (parseClassTrace raw).ibcClassID P = (parseClassTrace raw').ibcClassID P → raw = raw') ∧
    ∀ raw, OnlyLeads raw → ∃ raw', ¬ OnlyLeads raw' ∧ raw ≠ raw' ∧
      (parseClassTrace raw).ibcClassID P = (parseClassTrace raw').ibcClassID P := by
  refine ⟨getFullClassPath_parseClassTrace_iff, fun raw hraw raw' hraw' hleads hleads' h ↦
    eq_of_classOf_eq hU hraw hraw' hleads hleads' h, ?_⟩
  rintro _ ⟨base, hbase, rfl⟩
  exact ⟨base, not_onlyLeads_of_not_mem hbase, List.cons_ne_self _ _, classOf_cons hbase⟩

section Reference

open Reference

/-- The raw ids `kitty` and `p/c/kitty` have different class ids. -/
theorem class_traces_lossless_kitty :
    (parseClassTrace "kitty".toList).ibcClassID platform ≠
      (parseClassTrace "p/c/kitty".toList).ibcClassID platform := by
  have hinj : Set.InjOn platform.sha256 {"kitty".toList, "p/c/kitty".toList} := by
    have hne : sha256 "kitty".toList ≠ sha256 "p/c/kitty".toList := by decide +kernel
    rintro _ (rfl | rfl) _ (rfl | rfl) heq
    · rfl
    · exact absurd heq hne
    · exact absurd heq.symm hne
    · rfl
  have hrecovered : ∀ raw, (parseClassTrace raw).getFullClassPath = raw → ¬ OnlyLeads raw :=
    fun raw ↦ ((class_traces_lossless_iff hinj).1 raw).mp
  intro h
  have heq := (class_traces_lossless_iff hinj).2.1 _ (Or.inl rfl) _ (Or.inr rfl)
    (hrecovered _ (by decide)) (hrecovered _ (by decide)) h
  exact absurd heq (by decide)

/-- The raw ids `/kitty` and `kitty` have the same class id, and `/kitty` is not recovered. -/
theorem leading_separator_lost :
    (parseClassTrace "/kitty".toList).getFullClassPath = "kitty".toList ∧
      (parseClassTrace "/kitty".toList).ibcClassID platform =
        (parseClassTrace "kitty".toList).ibcClassID platform ∧
      "/kitty".toList ≠ "kitty".toList ∧ isBlank "/kitty".toList = false := by
  decide +kernel

end Reference

end ChainMain.NftTransfer
