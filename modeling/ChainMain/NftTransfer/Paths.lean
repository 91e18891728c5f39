import ChainMain.Nft.Registry
import ChainMain.NftTransfer.Keeper

/-!
# Class paths and class ids

What the string operations on class paths amount to. `ParseClassTrace` cuts at the last `/`
(`parseClassTrace_append`), so the id of a path that begins with a channel end is `ibc/` with the
hash of the path (`classOf_arrived`). A path that begins with a channel end begins with one only
(`classPrefix_append_inj`).

The ids of classes are of two kinds, native ones and those of vouchers. None of them, closed by the
delimiter, begins another one, except that the native id `ibc` begins the id of every voucher
(`unambiguous_of_kinds`).
-/

set_option autoImplicit false

namespace ChainMain.NftTransfer

open Foundations Texts Outcomes
open Nft (AccAddress validateDenomID)

variable {P : Platform}

/-! ### Parsing -/

theorem parseClassTrace_of_not_mem {raw : Text} (h : '/' ∉ raw) :
    parseClassTrace raw = ⟨[], raw⟩ := by
  unfold parseClassTrace
  rw [List.splitOn_eq_singleton h, if_pos]
  rfl

/-- The path is what stands before the last `/`. -/
theorem parseClassTrace_append {base : Text} (h : '/' ∉ base) (path : Text) :
    parseClassTrace (path ++ '/' :: base) = ⟨path, base⟩ := by
  have hne : path.splitOn '/' ≠ [] := List.splitOn_ne_nil '/' path
  have hsplit : (path ++ '/' :: base).splitOn '/' = path.splitOn '/' ++ [base] := by
    have hjoin : ['/'].intercalate (path.splitOn '/' ++ [base]) = path ++ '/' :: base := by
      rw [intercalate_concat hne, List.intercalate_splitOn]
    rw [← hjoin]
    refine List.splitOn_intercalate '/' (fun field hfield ↦ ?_) (by simp)
    rcases List.mem_append.mp hfield with hpath | hbase
    · exact not_mem_of_mem_splitOn hpath
    · exact List.mem_singleton.mp hbase ▸ h
  have hhead : ((path ++ '/' :: base).splitOn '/').headD [] ≠ path ++ '/' :: base := by
    intro heq
    obtain ⟨first, rest, hfields⟩ :=
      List.exists_cons_of_ne_nil (List.splitOn_ne_nil '/' (path ++ '/' :: base))
    rw [hfields, List.headD_cons] at heq
    have hmem : first ∈ (path ++ '/' :: base).splitOn '/' := by
      rw [hfields]
      exact List.mem_cons_self
    exact not_mem_of_mem_splitOn hmem (by simp [heq])
  unfold parseClassTrace
  dsimp only
  rw [if_neg hhead, hsplit, List.dropLast_concat, List.intercalate_splitOn, List.getLastD_concat]

/-- A text with a `/` is cut at the last one. -/
theorem exists_last_slash {raw : Text} (h : '/' ∈ raw) :
    ∃ path base, '/' ∉ base ∧ raw = path ++ '/' :: base := by
  obtain ⟨before, after, hsplit, hnot⟩ := List.eq_append_cons_of_mem (List.mem_reverse.mpr h)
  refine ⟨after.reverse, before.reverse, by simpa using hnot, ?_⟩
  rw [← List.reverse_reverse raw, hsplit]
  simp

/-- The id on this chain of the class with a path. -/
def classOf (P : Platform) (path : Text) : Text := (parseClassTrace path).ibcClassID P

def voucherID (P : Platform) (path : Text) : Text :=
  classMark ++ ['/'] ++ hex (P.sha256 path).toList

theorem classOf_of_not_mem {path : Text} (h : '/' ∉ path) : classOf P path = path := by
  rw [classOf, parseClassTrace_of_not_mem h]
  rfl

/-! ### Paths that begin with a channel end -/

theorem ChannelEnd.slash_not_mem_port (e : ChannelEnd P) : '/' ∉ e.port :=
  P.slash_not_mem_port e.port e.validPort

theorem ChannelEnd.slash_not_mem_channel (e : ChannelEnd P) : '/' ∉ e.channel :=
  P.slash_not_mem_channel e.channel e.validChannel

theorem getClassPrefix_append (e : ChannelEnd P) (rest : Text) :
    getClassPrefix e ++ rest = e.port ++ '/' :: (e.channel ++ '/' :: rest) := by
  simp [getClassPrefix]

theorem classPrefix_append_inj {e e' : ChannelEnd P} {rest rest' : Text}
    (h : getClassPrefix e ++ rest = getClassPrefix e' ++ rest') : e = e' ∧ rest = rest' := by
  rw [getClassPrefix_append, getClassPrefix_append] at h
  obtain ⟨hport, htail⟩ := append_cons_inj e.slash_not_mem_port e'.slash_not_mem_port h
  obtain ⟨hchannel, hrest⟩ := append_cons_inj e.slash_not_mem_channel e'.slash_not_mem_channel htail
  exact ⟨ChannelEnd.ext hport hchannel, hrest⟩

theorem isAwayFromOrigin_eq_false {e : ChannelEnd P} {path : Text} :
    isAwayFromOrigin e path = false ↔ ∃ rest, path = getClassPrefix e ++ rest := by
  rw [isAwayFromOrigin, Bool.not_eq_false', List.isPrefixOf_iff_prefix]
  exact ⟨fun ⟨rest, h⟩ ↦ ⟨rest, h.symm⟩, fun ⟨rest, h⟩ ↦ ⟨rest, h.symm⟩⟩

theorem removeClassPrefix_append (e : ChannelEnd P) (rest : Text) :
    removeClassPrefix e (getClassPrefix e ++ rest) = rest := by
  simp [removeClassPrefix]

/-- A path that begins with a channel end is not changed by parsing it and writing it out again. -/
theorem parseClassTrace_arrived (e : ChannelEnd P) (rest : Text) :
    (parseClassTrace (getClassPrefix e ++ rest)).path ≠ [] ∧
      (parseClassTrace (getClassPrefix e ++ rest)).getFullClassPath = getClassPrefix e ++ rest := by
  have hslash : '/' ∈ e.channel ++ '/' :: rest := by simp
  obtain ⟨path, base, hbase, hraw⟩ := exists_last_slash hslash
  have hfull : getClassPrefix e ++ rest = (e.port ++ '/' :: path) ++ '/' :: base := by
    rw [getClassPrefix_append, hraw]
    simp
  have hne : e.port ++ '/' :: path ≠ [] := by simp
  rw [hfull, parseClassTrace_append hbase]
  refine ⟨hne, ?_⟩
  rw [ClassTrace.getFullClassPath, if_neg hne, ClassTrace.getPrefix]
  simp

theorem classOf_arrived (e : ChannelEnd P) (rest : Text) :
    classOf P (getClassPrefix e ++ rest) = voucherID P (getClassPrefix e ++ rest) := by
  obtain ⟨hne, hfull⟩ := parseClassTrace_arrived e rest
  rw [classOf, ClassTrace.ibcClassID, if_pos hne, ClassTrace.hash, hfull, voucherID]

theorem hash_arrived (e : ChannelEnd P) (rest : Text) :
    (parseClassTrace (getClassPrefix e ++ rest)).hash P =
      (P.sha256 (getClassPrefix e ++ rest)).toList := by
  rw [ClassTrace.hash, (parseClassTrace_arrived e rest).2]

/-! ### Native ids and ids of vouchers -/

theorem slash_not_mem_of_alphaNumeric {t : Text} (h : Nft.isAlphaNumeric t = true) : '/' ∉ t := by
  intro hmem
  have hall := (Bool.and_eq_true_iff.mp h).2
  have hslash := List.all_eq_true.mp hall '/' hmem
  exact absurd hslash (by decide)

theorem validateID_eq_ok {code : Nft.ErrCode} {lengthText charsText : String} {id : Text} {u : Unit}
    (h : Nft.validateID code lengthText charsText id = .ok u) :
    Nft.isAlphaNumeric id = true ∧ Nft.minDenomLen ≤ size id := by
  unfold Nft.validateID at h
  simp only [bind_eq_ok, ensure_eq_ok, Bool.and_eq_true, decide_eq_true_eq] at h
  obtain ⟨-, ⟨hsize, -⟩, -, halpha⟩ := h
  exact ⟨halpha, hsize⟩

theorem slash_not_mem_native {d : Text} (h : validateDenomID d = .ok ()) : '/' ∉ d :=
  slash_not_mem_of_alphaNumeric (validateID_eq_ok h).1

theorem native_ne_nil {d : Text} (h : validateDenomID d = .ok ()) : d ≠ [] := by
  rintro rfl
  exact absurd (validateID_eq_ok h).2 (by decide)

theorem voucherID_eq (path : Text) :
    voucherID P path = classMark ++ '/' :: hex (P.sha256 path).toList := by
  simp [voucherID]

theorem voucherID_ne_nil (path : Text) : voucherID P path ≠ [] := by
  simp [voucherID]

theorem length_voucherID (path : Text) : (voucherID P path).length = 68 := by
  rw [voucherID, List.length_append, length_hex]
  simp [classMark]

theorem slash_mem_voucherID (path : Text) : '/' ∈ voucherID P path := by
  simp [voucherID]

theorem not_native_voucherID (path : Text) : validateDenomID (voucherID P path) ≠ .ok () :=
  fun h ↦ slash_not_mem_native h (slash_mem_voucherID path)

theorem sha256_eq_of_voucherID_eq {path path' : Text} (h : voucherID P path = voucherID P path') :
    P.sha256 path = P.sha256 path' :=
  Vector.toList_inj.mp (hex_injective (List.append_cancel_left h))

theorem classPathFromHash_voucherID (st : State) (path : Text) :
    classPathFromHash st (voucherID P path) =
      (expect st.traces[(P.sha256 path).toList]?
        (.registered .traceNotFound "%s" [.text (hex (P.sha256 path).toList)])).map
        ClassTrace.getFullClassPath := by
  have hhash : parseHexHash (hex (P.sha256 path).toList) = .ok (P.sha256 path).toList := by
    unfold parseHexHash
    rw [unhex_hex]
    simp [expect, ensure]
  unfold classPathFromHash
  rw [voucherID, List.drop_left]
  dsimp only
  rw [hhash]
  rfl

/-- The full path of a class that does not look like one of vouchers is its id. -/
theorem fullClassPath_native {st : State} {d : Text} (h : '/' ∉ d) :
    fullClassPath st d = .ok d := by
  have hmark : ¬ Nft.ibcMark.isPrefixOf d = true := by
    rw [List.isPrefixOf_iff_prefix]
    exact fun hstart ↦ h (hstart.subset (by decide))
  rw [fullClassPath, if_neg hmark]

theorem fullClassPath_voucherID (st : State) (path : Text) :
    fullClassPath st (voucherID P path) = classPathFromHash st (voucherID P path) := by
  have hmark : Nft.ibcMark.isPrefixOf (voucherID P path) = true := by
    rw [List.isPrefixOf_iff_prefix]
    exact ⟨_, rfl⟩
  rw [fullClassPath, if_pos hmark]

theorem slash_not_mem_classMark : '/' ∉ classMark := by decide

/-- The id of a class is native or that of vouchers. -/
def IsClassID (P : Platform) (d : Text) : Prop :=
  validateDenomID d = .ok () ∨ ∃ path, d = voucherID P path

/-- Ids of classes do not clash unless one of them is the native id `ibc` and the other one is that
of vouchers. -/
theorem eq_of_classID_start {d d' : Text} (h : IsClassID P d) (h' : IsClassID P d')
    (hibc : d = classMark → ∀ path, d' ≠ voucherID P path)
    (hstart : d ++ Nft.delimiter <+: d' ++ Nft.delimiter) : d = d' := by
  rcases h with hnative | ⟨path, rfl⟩
  · rcases h' with hnative' | ⟨path', rfl⟩
    · exact eq_of_append_start (slash_not_mem_native hnative) (slash_not_mem_native hnative') hstart
    · rw [voucherID_eq, List.append_assoc] at hstart
      have hmark := eq_of_append_start (slash_not_mem_native hnative) slash_not_mem_classMark hstart
      exact absurd rfl (hibc hmark path')
  · rcases h' with hnative' | ⟨path', rfl⟩
    · -- the native id would have to be `ibc`, which is too short
      have hmark : classMark ++ ['/'] <+: d' ++ '/' :: [] := by
        refine List.IsPrefix.trans ?_ hstart
        rw [voucherID_eq]
        exact ⟨hex (P.sha256 path).toList ++ Nft.delimiter, by simp⟩
      have hshort :=
        eq_of_append_start slash_not_mem_classMark (slash_not_mem_native hnative') hmark
      have hlength := hstart.length_le
      rw [← hshort, List.length_append, List.length_append, length_voucherID] at hlength
      exact absurd hlength (by decide)
    · have hlength : (voucherID P path ++ Nft.delimiter).length =
          (voucherID P path' ++ Nft.delimiter).length := by
        rw [List.length_append, List.length_append, length_voucherID, length_voucherID]
      exact List.append_cancel_right (hstart.eq_of_length hlength)

/-- The ids of a directory do not clash if it does not hold both the native class `ibc` and a class
of vouchers. -/
theorem unambiguous_of_kinds {D : Nft.Directory}
    (hkinds : ∀ d, (D.classes d).isSome → IsClassID P d)
    (hibc : (D.classes classMark).isSome → ∀ path, D.classes (voucherID P path) = none) :
    D.Unambiguous := by
  rintro _ ⟨d, hd, rfl⟩ _ ⟨d', hd', rfl⟩ hstart
  rw [eq_of_classID_start (hkinds d hd) (hkinds d' hd') _ hstart]
  rintro rfl path rfl
  rw [hibc hd path] at hd'
  cases hd'

end ChainMain.NftTransfer
