/-
**What the checksums are good for.**

Every frame of a `CMP2` stream, and every row group and footer of a `CMP4` file, carries a CRC-32.
The crate leaves its computation to a library; here the library is assumed to do what the crate's
own documentation says of it.  Then damage that stays within four bytes never passes: a `CMP4` file
is rejected wherever it was damaged, and a `CMP2` stream ends, for recovery, in front of the damaged
block.

Main definitions:

* `CompactCore.IeeeCrc32` — the library computes the CRC-32 of the IEEE polynomial;
* `CompactCore.Streaming.HitsBlock` — damage to the payload of a block, or to its checksum.

Main results:

* `CompactCore.Io.V4.validateFile_burst` — **a damaged file does not validate**;
* `CompactCore.Streaming.recoverAppendStream_burst` — **recovery keeps the blocks in front of the
  damage, and only those**.
-/

import CompactCore.Io.V4.Scan
import CompactCore.Io.V4.Validate
import CompactCore.Storage.Repair
import CompactCore.Streaming.Recovery
import CompactCore.Wire.Crc

set_option relaxedAutoImplicit false
set_option autoImplicit false

namespace Wire

/-! ### Parts of numbers -/

theorem leNat_take_drop (bs : List UInt8) {k : ℕ} (hk : k ≤ bs.length) :
    leNat (bs.take k) = leNat bs % 256 ^ k ∧ leNat (bs.drop k) = leNat bs / 256 ^ k := by
  have hlen : (bs.take k).length = k := by rw [List.length_take, Nat.min_eq_left hk]
  have hlt := leNat_lt (bs.take k)
  have hsum := leNat_append (bs.take k) (bs.drop k)
  rw [List.take_append_drop] at hsum
  rw [hlen] at hlt hsum
  rw [hsum]
  exact ⟨by rw [Nat.add_mul_mod_self_left, Nat.mod_eq_of_lt hlt],
    by rw [Nat.add_mul_div_left _ _ (by positivity), Nat.div_eq_of_lt hlt, Nat.zero_add]⟩

theorem At.getElem? {data bs : List UInt8} {c i : ℕ} (h : At data c bs) (hi : i < bs.length) :
    data[c + i]? = bs[i]? := by
  obtain ⟨pre, post, rfl, rfl⟩ := at_iff_exists.1 h
  rw [List.append_assoc, List.getElem?_append_right (Nat.le_add_right _ _), Nat.add_sub_cancel_left,
    List.getElem?_append_left hi]

/-- A fold that succeeds with one step function succeeds alike with another one that follows it. -/
theorem foldlM_ok_imp {ε σ α : Type} {f g : σ → α → Except ε σ} {xs : List α} {s s' : σ}
    (hstep : ∀ x ∈ xs, ∀ s s', f s x = .ok s' → g s x = .ok s') (h : xs.foldlM f s = .ok s') :
    xs.foldlM g s = .ok s' := by
  induction xs generalizing s with
  | nil => exact h
  | cons x xs ih =>
      rw [List.foldlM_cons, bind_ok] at h ⊢
      obtain ⟨s₁, hx, hxs⟩ := h
      exact ⟨s₁, hstep x List.mem_cons_self s s₁ hx,
        ih (fun y hy => hstep y (List.mem_cons_of_mem _ hy)) hxs⟩

end Wire

namespace CompactCore

open Wire

/-- The checksum library computes the CRC-32 of the IEEE polynomial. -/
def IeeeCrc32 [Crc32Fast] : Prop := ∀ data, Crc32Fast.hash data = Crc.ieee data

/-! ### `CMP4` files -/

namespace Io.V4

open CompactError Format Format.V4

variable [Crc32Fast]

omit [Crc32Fast] in
/-- The two words of a trailer that say where the footer is have a fixed sum, so that a burst cannot
change them. -/
theorem trailer_range {p n : ℕ} (hn : n ≤ 4) {t t' : FooterTrailer}
    (hburst : Burst p n (encodeTrailer t) (encodeTrailer t'))
    (hsum : t.footerOffset.toNat + t.footerLen.toNat =
      t'.footerOffset.toNat + t'.footerLen.toNat) :
    t.footerOffset = t'.footerOffset ∧ t.footerLen = t'.footerLen := by
  suffices h : t.footerOffset.toNat = t'.footerOffset.toNat by
    exact ⟨UInt64.toNat_inj.1 h, UInt64.toNat_inj.1 (by omega)⟩
  have hoffset : ∀ t : FooterTrailer, At (encodeTrailer t) 0 (le64 t.footerOffset) := fun t =>
    (at_append.1 (at_self (encodeTrailer t))).1
  have hlen : ∀ t : FooterTrailer, At (encodeTrailer t) 8 (le64 t.footerLen) := fun t =>
    (at_append.1 (at_append.1 (at_self (encodeTrailer t))).2).1
  rcases Nat.lt_or_ge p 8 with hp | hp
  · rcases Nat.lt_or_ge 8 (p + n) with hpn | hpn
    · -- the window holds the high bytes of the offset, and the low bytes of the length
      have hlow : t.footerOffset.toNat % 256 ^ p = t'.footerOffset.toNat % 256 ^ p := by
        have hpart : ∀ t : FooterTrailer,
            (encodeTrailer t).take p = (le64 t.footerOffset).take p := fun t =>
          List.take_append_of_le_length (by rw [length_le64]; omega)
        have hbefore := congrArg leNat hburst.before
        rwa [hpart, hpart, (leNat_take_drop _ (by rw [length_le64]; omega)).1, leNat_le64,
          (leNat_take_drop _ (by rw [length_le64]; omega)).1, leNat_le64] at hbefore
      have hhigh : t.footerLen.toNat / 256 ^ (p + n - 8) =
          t'.footerLen.toNat / 256 ^ (p + n - 8) := by
        have hpart : ∀ t : FooterTrailer,
            At (encodeTrailer t) (p + n) ((le64 t.footerLen).drop (p + n - 8)) := by
          intro t
          have hat := hlen t
          rw [← List.take_append_drop (p + n - 8) (le64 t.footerLen), at_append] at hat
          have hmid : 8 + ((le64 t.footerLen).take (p + n - 8)).length = p + n := by
            rw [List.length_take, length_le64]
            omega
          rw [hmid] at hat
          exact hat.2
        have hsame := (hburst.at_behind (hpart t) (le_refl _)).eq_of_length (hpart t') (by simp)
        have hnum := congrArg leNat hsame
        rwa [(leNat_take_drop _ (by rw [length_le64]; omega)).2, leNat_le64,
          (leNat_take_drop _ (by rw [length_le64]; omega)).2, leNat_le64] at hnum
      have hcases : (p = 5 ∨ p = 6 ∨ p = 7) ∧ p + n - 8 ≤ 3 ∧ (p = 6 → p + n - 8 ≤ 2) ∧
          (p = 5 → p + n - 8 ≤ 1) ∧ 1 ≤ p + n - 8 := by omega
      obtain ⟨hp, hk3, hk2, hk1, hk0⟩ := hcases
      have hk : p + n - 8 = 1 ∨ p + n - 8 = 2 ∨ p + n - 8 = 3 := by omega
      rcases hp with rfl | rfl | rfl <;> rcases hk with hk | hk | hk <;> rw [hk] at hhigh <;> omega
    · have hsame := (hburst.at_behind (hlen t) hpn).eq_of_length (hlen t') (by simp)
      have hnum := congrArg leNat hsame
      rw [leNat_le64, leNat_le64] at hnum
      omega
  · have hsame := (hburst.at_before (hoffset t) (by rw [length_le64]; omega)).eq_of_length
      (hoffset t') (by simp)
    have hnum := congrArg leNat hsame
    rwa [leNat_le64, leNat_le64] at hnum

/-- What two valid files of one length have in common, whatever their bytes: where the footer
ends. -/
structure FooterAt (data : List UInt8) (trailer : FooterTrailer) (bytes : List UInt8) : Prop where
  stored : At data trailer.footerOffset.toNat (bytes ++ encodeTrailer trailer)
  length_eq : trailer.footerOffset.toNat + (bytes.length + footerTrailerLen) = data.length
  len_eq : bytes.length = trailer.footerLen.toNat
  checksum_eq : trailer.footerChecksum = checksum32 bytes

theorem FooterAt.at_bytes {data bytes : List UInt8} {trailer : FooterTrailer}
    (h : FooterAt data trailer bytes) : At data trailer.footerOffset.toNat bytes :=
  (at_append.1 h.stored).1

theorem FooterAt.trailer_eq {data bytes : List UInt8} {trailer : FooterTrailer}
    (h : FooterAt data trailer bytes) :
    data.drop (data.length - footerTrailerLen) = encodeTrailer trailer := by
  have hat := (at_append.1 h.stored).2
  have hlen := h.length_eq
  have hpos : trailer.footerOffset.toNat + bytes.length = data.length - footerTrailerLen := by omega
  rw [hpos] at hat
  rw [hat.eq_drop, length_encodeTrailer, List.drop_of_length_le (by omega), List.append_nil]

/-- **A burst does not get past the footer's checksum.** -/
theorem FooterAt.eq_of_burst (hcrc : IeeeCrc32) {p n : ℕ} (hn : n ≤ 4) {xs ys : List UInt8}
    {t t' : FooterTrailer} {bytes bytes' : List UInt8} (hburst : Burst p n xs ys)
    (h : FooterAt xs t bytes) (h' : FooterAt ys t' bytes') : t = t' ∧ bytes = bytes' := by
  have hlen := h.length_eq
  have hlen' := h'.length_eq
  have hsame := hburst.length_eq
  have htrailers := hburst.drop (xs.length - footerTrailerLen)
  have htrailer' : ys.drop (xs.length - footerTrailerLen) = encodeTrailer t' := by
    rw [hsame, h'.trailer_eq]
  rw [h.trailer_eq, htrailer'] at htrailers
  have hwords := h.len_eq
  have hwords' := h'.len_eq
  obtain ⟨hoffset, hfooterLen⟩ := trailer_range hn htrailers (by omega)
  -- the two footers are the same bytes of the files, up to a burst
  have hbytes : Burst (p - t.footerOffset.toNat) n bytes bytes' := by
    have hcut := (hburst.drop t.footerOffset.toNat).take bytes.length
    have hslice' : (ys.drop t.footerOffset.toNat).take bytes.length = bytes' := by
      rw [hoffset, hwords, hfooterLen, ← hwords']
      exact h'.at_bytes.slice
    rwa [h.at_bytes.slice, hslice'] at hcut
  have heq : bytes = bytes' := by
    rcases Nat.le_total (t.footerOffset.toNat + bytes.length) p with hp | hp
    · exact hbytes.eq_of_outside (Or.inl (by omega))
    · -- the window starts in the footer or before it, so the checksum was not hit
      have hchecksum : ∀ t : FooterTrailer, At (encodeTrailer t) 16 (le32 t.footerChecksum) :=
        fun t => (at_append.1 (at_append.1 (at_append.1 (at_self (encodeTrailer t))).2).2).1
      have hsum := le32_unique (htrailers.at_behind (hchecksum t) (by omega)) (hchecksum t')
      rw [h.checksum_eq, h'.checksum_eq, checksum32, checksum32, checksum, checksum, hcrc,
        hcrc] at hsum
      exact Crc.ieee_inj_of_burst hn hbytes hsum
  refine ⟨?_, heq⟩
  have hsum : t.footerChecksum = t'.footerChecksum := by rw [h.checksum_eq, h'.checksum_eq, heq]
  obtain ⟨offset, len, sum⟩ := t
  obtain ⟨offset', len', sum'⟩ := t'
  simp only at hoffset hfooterLen hsum
  rw [hoffset, hfooterLen, hsum]

/-- A burst does not get past the checksum of a row group. -/
theorem stored_eq_of_burst (hcrc : IeeeCrc32) {p n : ℕ} (hn : n ≤ 4) {xs ys : List UInt8}
    {entry : RowGroupIndexEntry} (hburst : Burst p n xs ys) (h : Stored xs entry)
    (h' : Stored ys entry) {i : ℕ} (hle : entry.rowGroupOffset.toNat ≤ i)
    (hlt : i < entry.rowGroupOffset.toNat + entry.rowGroupLen.toNat) : xs[i]? = ys[i]? := by
  obtain ⟨body, hat, hlen⟩ := h.checksum
  obtain ⟨body', hat', hlen'⟩ := h'.checksum
  have hcut := (hburst.drop entry.rowGroupOffset.toNat).take (body ++ le32 (checksum body)).length
  have hlong : (body ++ le32 (checksum body)).length = entry.rowGroupLen.toNat := by
    rw [List.length_append, length_le32, ← hlen, checksumLen]
  have hlong' : (body' ++ le32 (checksum body')).length = entry.rowGroupLen.toNat := by
    rw [List.length_append, length_le32, ← hlen', checksumLen]
  rw [hat.slice, hlong, ← hlong', hat'.slice, checksum, checksum, hcrc, hcrc] at hcut
  have heq := Crc.concat_inj_of_burst hn hcut
  obtain ⟨j, rfl⟩ := Nat.exists_eq_add_of_le hle
  rw [hat.getElem? (by omega), hat'.getElem? (by omega), checksum, checksum, hcrc, hcrc, heq]

/-- The footer of a file depends on the bytes of the footer only. -/
theorem decodeFooter_of_footerAt {xs ys bytes : List UInt8} {footer : FooterIndex}
    {trailer : FooterTrailer} (hfit : Fits xs) (hfit' : Fits ys) (h : FooterAt xs trailer bytes)
    (h' : FooterAt ys trailer bytes) (hfooter : decodeFooter xs = .ok footer) :
    decodeFooter ys = .ok footer := by
  obtain ⟨hlimit, body, trailer', happend⟩ := (decodeFooter_ok hfit).1 hfooter
  obtain ⟨hoffset, hvalid, bytes', henc, hlen, hsum, hfile⟩ := appendFooter_ok.1 happend
  have hsame : trailer' = trailer := by
    have hread := appendFooter_trailer happend hfit
    rw [(decodeFooterTrailer_ok hfit).2 ⟨xs.take (xs.length - footerTrailerLen), ?_⟩,
      Except.ok.injEq] at hread
    · exact hread.symm
    · rw [← h.trailer_eq, List.take_append_drop]
  subst hsame
  have hbytes : bytes' = bytes := by
    have hat : At xs trailer'.footerOffset.toNat bytes' := by
      have hmid := at_mid body bytes' (encodeTrailer trailer')
      rwa [List.append_assoc, ← hfile, ← hoffset] at hmid
    exact hat.eq_of_length h.at_bytes (by rw [← hlen, h.len_eq])
  subst hbytes
  have hle := h'.stored.le
  have hend := h'.length_eq
  refine (decodeFooter_ok hfit').2 ⟨hlimit, ys.take trailer'.footerOffset.toNat, trailer',
    appendFooter_ok.2 ⟨by rw [List.length_take]; omega, hvalid, bytes', henc, hlen, hsum, ?_⟩⟩
  have hrest : ys.drop (trailer'.footerOffset.toNat + (bytes' ++ encodeTrailer trailer').length) =
      [] := List.drop_of_length_le (by rw [List.length_append, length_encodeTrailer]; omega)
  have hdrop := h'.stored.eq_drop
  rw [hrest, List.append_nil] at hdrop
  rw [← hdrop, List.take_append_drop]

/-- Where the footer of a file is. -/
theorem exists_footerAt {data : List UInt8} {footer : FooterIndex} (hfit : Fits data)
    (h : decodeFooter data = .ok footer) : ∃ trailer bytes, FooterAt data trailer bytes ∧
      decodeFooterTrailer data = .ok trailer := by
  obtain ⟨-, body, trailer, happend⟩ := (decodeFooter_ok hfit).1 h
  obtain ⟨hoffset, -, bytes, -, hlen, hsum, hfile⟩ := appendFooter_ok.1 happend
  refine ⟨trailer, bytes, ⟨?_, ?_, hlen.symm, hsum⟩, appendFooter_trailer happend hfit⟩
  · have hmid := at_mid body (bytes ++ encodeTrailer trailer) []
    rwa [List.append_nil, ← hfile, ← hoffset] at hmid
  · rw [hfile, List.length_append, List.length_append, length_encodeTrailer, hoffset]

/-- **A burst does not change an index**: it is noticed, or it hits something else. -/
theorem footer_eq_of_burst (hcrc : IeeeCrc32) {p n : ℕ} (hn : n ≤ 4) {xs ys : List UInt8}
    {footer footer' : FooterIndex} (hfit : Fits xs) (hburst : Burst p n xs ys)
    (h : decodeFooter xs = .ok footer) (h' : decodeFooter ys = .ok footer') :
    footer' = footer ∧ ∃ trailer bytes, FooterAt xs trailer bytes ∧ FooterAt ys trailer bytes ∧
      decodeFooterTrailer xs = .ok trailer := by
  have hfit' : Fits ys := by
    rw [Fits, ← hburst.length_eq]
    exact hfit
  obtain ⟨trailer, bytes, hend, htrailer⟩ := exists_footerAt hfit h
  obtain ⟨trailer', bytes', hend', -⟩ := exists_footerAt hfit' h'
  obtain ⟨rfl, rfl⟩ := hend.eq_of_burst hcrc hn hburst hend'
  rw [decodeFooter_of_footerAt hfit hfit' hend hend' h, Except.ok.injEq] at h'
  exact ⟨h'.symm, trailer, bytes, hend, hend', htrailer⟩

/-- The row groups of an index that was read are valid. -/
theorem decodeFooter_valid {data : List UInt8} {footer : FooterIndex} (hfit : Fits data)
    (h : decodeFooter data = .ok footer) : ∀ entry ∈ footer.rowGroups, entry.Valid := by
  obtain ⟨-, body, trailer, happend⟩ := (decodeFooter_ok hfit).1 h
  obtain ⟨-, hvalid, -⟩ := appendFooter_ok.1 happend
  exact fun entry hentry => ((validateFooterIndex_ok.1 hvalid).2.1 entry hentry).1

/-- What validation finds out about a file. -/
structure Validated (data : List UInt8) (footer : FooterIndex) : Prop where
  header : HasHeader data
  index : decodeFooter data = .ok footer
  body : ∀ trailer, decodeFooterTrailer data = .ok trailer →
    Tiles (fun entry : RowGroupIndexEntry => entry.rowGroupOffset.toNat)
      (fun entry => entry.rowGroupLen.toNat) fileHeaderLen footer.rowGroups
        trailer.footerOffset.toNat
  groups : ∀ entry ∈ footer.rowGroups, verifyRowGroup data entry true = .ok ()

theorem verify_of_validateRowGroups {data : List UInt8} {first last : UInt64}
    {entries : List RowGroupIndexEntry} (h : validateRowGroups data first entries = .ok last) :
    ∀ entry ∈ entries, verifyRowGroup data entry true = .ok () := by
  induction entries generalizing first with
  | nil => simp
  | cons entry entries ih =>
      simp only [validateRowGroups, bind_ok] at h
      obtain ⟨_, -, _, hverify, next, -, hrest⟩ := h
      intro other hother
      rcases List.mem_cons.1 hother with rfl | hmem
      · exact hverify
      · exact ih hrest other hmem

theorem validated {data : List UInt8} {footer : FooterIndex} (hfit : Fits data)
    (h : validateFile data = .ok footer) : Validated data footer := by
  simp only [validateFile, bind_ok, failIf_ok, not_not, tryU64_ok, pure_ok] at h
  obtain ⟨header, hheader, _, hpayload, trailer, htrailer, _, hfooter, start, hstart, last, hgroups,
    _, rfl, rfl⟩ := h
  obtain ⟨hhas, rfl⟩ := decodeHeader_empty.1 ⟨hheader, hpayload⟩
  obtain ⟨htiles, -⟩ := validateRowGroups_sound hfit hgroups
  rw [hstart] at htiles
  refine ⟨hhas, hfooter, fun trailer' htrailer' => ?_, verify_of_validateRowGroups hgroups⟩
  rw [htrailer, Except.ok.injEq] at htrailer'
  rw [← htrailer']
  exact htiles

/-- **A damaged file is noticed**, once its header, its footer and all of its row groups have been
checked. -/
theorem Validated.eq_of_burst (hcrc : IeeeCrc32) {p n : ℕ} (hn : n ≤ 4) {xs ys : List UInt8}
    {footer footer' : FooterIndex} (hfit : Fits xs) (hburst : Burst p n xs ys)
    (h : Validated xs footer) (hheader : HasHeader ys) (hfooter : decodeFooter ys = .ok footer')
    (hgroups : ∀ entry ∈ footer'.rowGroups, verifyRowGroup ys entry true = .ok ()) : xs = ys := by
  have hfit' : Fits ys := by
    rw [Fits, ← hburst.length_eq]
    exact hfit
  obtain ⟨rfl, trailer, bytes, hend, hend', htrailer⟩ :=
    footer_eq_of_burst hcrc hn hfit hburst h.index hfooter
  have htiles := h.body trailer htrailer
  have hlen := hend.length_eq
  refine List.ext_getElem? fun i => ?_
  rcases Nat.lt_or_ge i fileHeaderLen with hlow | hlow
  · have hleft := At.getElem? h.header (show i < encodeEmptyHeader.length from hlow)
    have hright := At.getElem? hheader (show i < encodeEmptyHeader.length from hlow)
    rw [Nat.zero_add] at hleft hright
    rw [hleft, hright]
  · rcases Nat.lt_or_ge i trailer.footerOffset.toNat with hmid | hmid
    · obtain ⟨entry, hentry, hle, hlt⟩ := htiles.exists_mem hlow hmid
      exact stored_eq_of_burst hcrc hn hburst (verifyRowGroup_sound hfit (h.groups entry hentry))
        (verifyRowGroup_sound hfit' (hgroups entry hentry)) hle hlt
    · rcases Nat.lt_or_ge i xs.length with hhigh | hhigh
      · obtain ⟨j, rfl⟩ := Nat.exists_eq_add_of_le hmid
        have hj : j < (bytes ++ encodeTrailer trailer).length := by
          rw [List.length_append, length_encodeTrailer]
          omega
        rw [hend.stored.getElem? hj, hend'.stored.getElem? hj]
      · rw [List.getElem?_eq_none hhigh, List.getElem?_eq_none (hburst.length_eq ▸ hhigh)]

/-! ### Scanning a damaged file -/

omit [Crc32Fast] in
/-- A range inside a stretch on which two files agree is read alike. -/
theorem checkedSlice_of_same {xs ys bs : List UInt8} {entry : RowGroupIndexEntry}
    {offset len : UInt64} {err : String} (hfit : Fits xs) (hlen : xs.length = ys.length)
    (hsame : ∀ i, entry.rowGroupOffset.toNat ≤ i →
      i < entry.rowGroupOffset.toNat + entry.rowGroupLen.toNat → xs[i]? = ys[i]?)
    (hcovers : entry.Covers offset len) (h : checkedSlice ys offset len err = .ok bs) :
    checkedSlice xs offset len err = .ok bs := by
  have hfit' : Fits ys := by
    rw [Fits, ← hlen]
    exact hfit
  obtain ⟨hat, hbs⟩ := (checkedSlice_ok hfit').1 h
  have hstart := hcovers.start_le
  have hstop := hcovers.end_le
  have hle := hat.le
  refine (checkedSlice_ok hfit).2 ⟨⟨by omega, ?_⟩, hbs⟩
  rw [← hat.slice]
  refine List.ext_getElem? fun i => ?_
  rw [List.getElem?_take, List.getElem?_take, List.getElem?_drop, List.getElem?_drop]
  have hlong : ((ys.drop offset.toNat).take bs.length).length = bs.length := by
    rw [hat.slice]
  rw [hlong]
  split
  · exact hsame _ (by omega) (by omega)
  · rfl

omit [Crc32Fast] in
theorem decodeRequired_of_same {xs ys : List UInt8} {entry : RowGroupIndexEntry}
    {columns projectedColumns : List ColumnSchema} {name : String} {decoded : DecodedSelection}
    (hfit : Fits xs) (hlen : xs.length = ys.length)
    (hsame : ∀ i, entry.rowGroupOffset.toNat ≤ i →
      i < entry.rowGroupOffset.toNat + entry.rowGroupLen.toNat → xs[i]? = ys[i]?)
    (hvalid : entry.Valid)
    (h : decodeRequired ys entry columns projectedColumns name = .ok decoded) :
    decodeRequired xs entry columns projectedColumns name = .ok decoded := by
  simp only [decodeRequired, decodeSchemaColumn, decodeFooterColumn, bind_ok, okOr_ok, pure_ok,
    Prod.exists] at h ⊢
  obtain ⟨schema, hschema, column, ⟨footerColumn, hfind, metadata, hmetadata, rest⟩, hdecoded⟩ := h
  obtain ⟨read, consumed, hread, u, hconsumed, rowCount, hcount, u', hcheck, u'', hmatch, payload,
    hpayload, hcolumn⟩ := rest
  have hcovers := hvalid.columns footerColumn (List.mem_of_find?_eq_some hfind)
  exact ⟨schema, hschema, column, ⟨footerColumn, hfind, metadata,
    checkedSlice_of_same hfit hlen hsame hcovers.metadata hmetadata, read, consumed, hread, u,
    hconsumed, rowCount, hcount, u', hcheck, u'', hmatch, payload,
    checkedSlice_of_same hfit hlen hsame hcovers.payload hpayload, hcolumn⟩, hdecoded⟩

variable [SerdeJson]

/-- A row group of a damaged file is scanned like that of the file, if it is scanned at all. -/
theorem scanRowGroup_of_burst (hcrc : IeeeCrc32) {p n : ℕ} (hn : n ≤ 4) {xs ys : List UInt8}
    {entry : RowGroupIndexEntry} {columns projectedColumns : List ColumnSchema}
    {predicate : Option Predicate} {s s' : ScanResult} (hfit : Fits xs) (hburst : Burst p n xs ys)
    (hvalid : entry.Valid) (hverify : verifyRowGroup xs entry true = .ok ())
    (h : scanRowGroup ys columns projectedColumns predicate s entry = .ok s') :
    scanRowGroup xs columns projectedColumns predicate s entry = .ok s' := by
  have hfit' : Fits ys := by
    rw [Fits, ← hburst.length_eq]
    exact hfit
  simp only [scanRowGroup, bind_ok] at h ⊢
  obtain ⟨mayMatch, hmay, h⟩ := h
  refine ⟨mayMatch, hmay, ?_⟩
  cases mayMatch with
  | false => exact h
  | true =>
      simp only [if_true, decodeRowGroupProjection, bind_ok] at h ⊢
      obtain ⟨decoded, ⟨u, hverify', hdecoded⟩, h⟩ := h
      have hsame : ∀ i, entry.rowGroupOffset.toNat ≤ i →
          i < entry.rowGroupOffset.toNat + entry.rowGroupLen.toNat → xs[i]? = ys[i]? :=
        fun i hle hlt => stored_eq_of_burst hcrc hn hburst (verifyRowGroup_sound hfit hverify)
          (verifyRowGroup_sound hfit' hverify') hle hlt
      rw [mapM_ok] at hdecoded
      refine ⟨decoded, ⟨(), hverify, mapM_ok.2 (hdecoded.imp fun name selection hname => ?_)⟩, h⟩
      exact decodeRequired_of_same hfit hburst.length_eq hsame hvalid hname

/-- A full scan checks every row group. -/
theorem verify_of_scan {data : List UInt8} {columns projectedColumns : List ColumnSchema}
    {entries : List RowGroupIndexEntry} {s s' : ScanResult}
    (h : entries.foldlM (scanRowGroup data columns projectedColumns none) s = .ok s') :
    ∀ entry ∈ entries, verifyRowGroup data entry true = .ok () := by
  refine foldlM_invariant (P := fun done _ => ∀ entry ∈ done,
    verifyRowGroup data entry true = .ok ()) (fun done entry s s' hdone hscan => ?_) (by simp) h
  intro other hother
  rcases List.mem_append.1 hother with hmem | hmem
  · exact hdone other hmem
  · rw [List.mem_singleton.1 hmem]
    simp only [scanRowGroup, rowGroupMayMatch, bind_ok, Except.ok.injEq, exists_eq_left', if_true,
      decodeRowGroupProjection] at hscan
    obtain ⟨decoded, ⟨_, hverify, -⟩, -⟩ := hscan
    exact hverify

/-- **No damage within four bytes goes unnoticed.**  The damaged copy of a file that validates does
not validate; a scan of it that does succeed, because it skips the damaged row group, returns what
it returns of the file itself; and its rows are not decoded. -/
theorem validateFile_burst (hcrc : IeeeCrc32) {p n : ℕ} (hn : n ≤ 4) {xs ys : List UInt8}
    {footer : FooterIndex} (hfit : Fits xs) (hburst : Burst p n xs ys) (hne : xs ≠ ys)
    (h : validateFile xs = .ok footer) :
    (∃ e, validateFile ys = .error e) ∧
      (∀ schema projection predicate result,
        scanJsonl ys schema projection predicate = .ok result →
          scanJsonl xs schema projection predicate = .ok result) ∧
      ∀ schema, ∃ e, decodeJsonl ys schema = .error e := by
  have hfit' : Fits ys := by
    rw [Fits, ← hburst.length_eq]
    exact hfit
  have hvalid := validated hfit h
  refine ⟨exists_error_iff.2 fun footer' h' => ?_, ?_, fun schema => exists_error_iff.2 ?_⟩
  · have hvalid' := validated hfit' h'
    exact hne (hvalid.eq_of_burst hcrc hn hfit hburst hvalid'.header hvalid'.index hvalid'.groups)
  · intro schema projection predicate result hscan
    simp only [scanJsonl, bind_ok, failIf_ok, not_not] at hscan ⊢
    obtain ⟨columns, hschema, header, hheader, _, hpayload, footer', hfooter, projected, hproject,
      _, hpredicate, hloop⟩ := hscan
    obtain ⟨rfl, -⟩ := footer_eq_of_burst hcrc hn hfit hburst hvalid.index hfooter
    obtain ⟨-, rfl⟩ := decodeHeader_empty.1 ⟨hheader, hpayload⟩
    refine ⟨columns, hschema, _, (decodeHeader_empty.2 ⟨hvalid.header, rfl⟩).1, (), rfl, footer',
      hvalid.index, projected, hproject, (), hpredicate, ?_⟩
    refine foldlM_ok_imp (fun entry hentry s s' hscan => ?_) hloop
    exact scanRowGroup_of_burst hcrc hn hfit hburst
      (decodeFooter_valid hfit hvalid.index entry hentry)
      (hvalid.groups entry hentry) hscan
  · intro text hdecode
    simp only [decodeJsonl, scanJsonl, bind_ok, failIf_ok, not_not] at hdecode
    obtain ⟨_,
      ⟨columns, -, header, hheader, _, hpayload, footer', hfooter, _, -, _, -, hloop⟩, -⟩ :=
      hdecode
    exact hne (hvalid.eq_of_burst hcrc hn hfit hburst (decodeHeader_empty.1 ⟨hheader, hpayload⟩).1
      hfooter (verify_of_scan hloop))

end Io.V4

/-! ### `CMP2` streams -/

namespace Streaming

open CompactError

variable [Crc32Fast]

/-- A window of a stream lies inside the payload of a block, or inside its checksum. -/
def HitsBlock (block : BlockMetadata) (p n : ℕ) : Prop :=
  (block.encodedOffset.toNat + 14 ≤ p ∧ p + n ≤ block.encodedOffset.toNat + 18) ∨
    (block.encodedOffset.toNat + 18 ≤ p ∧ p + n ≤ block.endOffset)

instance decidableHitsBlock (block : BlockMetadata) (p n : ℕ) : Decidable (HitsBlock block p n) :=
  inferInstanceAs (Decidable (_ ∨ _))

/-- The metadata of a block names its place in the log. -/
theorem metadataFrom_get {blocks : List Block} {k : ℕ} {entry : BlockMetadata}
    (h : (metadataFrom streamHeaderLen blocks)[k]? = some entry) :
    ∃ before block after, blocks = before ++ block :: after ∧ before.length = k ∧
      entry = block.metadata (streamEnd before) ∧
        (metadataFrom streamHeaderLen blocks).take k = metadataFrom streamHeaderLen before := by
  obtain ⟨before, block, after, rfl, rfl⟩ :
      ∃ before block after, blocks = before ++ block :: after ∧
      before.length = k := by
    have hk : k < blocks.length := by
      rw [← length_metadataFrom streamHeaderLen blocks]
      exact (List.getElem?_eq_some_iff.1 h).1
    exact ⟨blocks.take k, blocks[k], blocks.drop (k + 1), by simp, by simp; omega⟩
  have hlen := length_metadataFrom streamHeaderLen before
  rw [metadataFrom_append, metadataFrom, List.getElem?_append_right (by omega), hlen,
    Nat.sub_self, List.getElem?_cons_zero, Option.some.injEq] at h
  exact ⟨before, block, after, rfl, rfl, h.symm, by rw [metadataFrom_append, List.take_left' hlen]⟩

/-- **A damaged frame is no frame**: what passes for a frame at the place of a block, after a burst
that hit its payload or its checksum, is the frame itself. -/
theorem eq_of_burst_frame (hcrc : IeeeCrc32) {p n c : ℕ} (hn : n ≤ 4) {xs ys : List UInt8}
    {block block' : Block} (hburst : Burst p n xs ys) (hmax : block.payload.length < 2 ^ 64)
    (hmax' : block'.payload.length < 2 ^ 64)
    (hhits : (c + 14 ≤ p ∧ p + n ≤ c + 18) ∨ (c + 18 ≤ p ∧ p + n ≤ c + block.frame.length))
    (hat : At xs c block.frame) (hat' : At ys c block'.frame) : At ys c block.frame := by
  obtain ⟨hhead, hlen, hsum, hpayload⟩ := Block.at_frame.1 hat
  obtain ⟨-, hlen', hsum', hpayload'⟩ := Block.at_frame.1 hat'
  have hstart : c + 14 ≤ p := by omega
  have hhead' := hburst.at_before hhead (by
    show c + 6 ≤ p
    omega)
  have hlen'' := hburst.at_before hlen (by rw [length_le64]; omega)
  have hsize := congrArg UInt64.toNat (le64_unique hlen'' hlen')
  rw [toNat_ofNat hmax, toNat_ofNat hmax'] at hsize
  have hframe := block.length_frame
  rw [frameHeaderLen] at hframe
  -- either the payloads are the same bytes of the two streams, or the checksums are
  have hpayloads : block.payload = block'.payload := by
    rcases hhits with ⟨-, hp⟩ | ⟨hp, -⟩
    · exact (hburst.at_behind hpayload hp).eq_of_length hpayload' hsize
    · have hsums := le32_unique (hburst.at_before hsum (by rw [length_le32]; omega)) hsum'
      have hcut := (hburst.drop (c + 18)).take block.payload.length
      rw [hpayload.slice, hsize, hpayload'.slice] at hcut
      rw [checksum, checksum, hcrc, hcrc] at hsums
      exact Crc.ieee_inj_of_burst hn hcut hsums
  exact Block.at_frame.2 ⟨hhead', hlen'', by rwa [hpayloads], by rwa [hpayloads]⟩

omit [Crc32Fast] in
/-- A burst that leaves the bytes around it as they were changed nothing. -/
theorem eq_of_hits {p n c : ℕ} {xs ys bs : List UInt8} (hburst : Burst p n xs ys)
    (hp : c ≤ p ∧ p + n ≤ c + bs.length) (hat : At xs c bs) (hat' : At ys c bs) : xs = ys := by
  have hsplit : ∀ zs : List UInt8, At zs c bs →
      zs = zs.take c ++ (bs ++ zs.drop (c + bs.length)) := by
    intro zs hzs
    rw [← hzs.eq_drop, List.take_append_drop]
  have hbefore : xs.take c = ys.take c := by
    have h := congrArg (List.take c) hburst.before
    rwa [List.take_take, List.take_take, Nat.min_eq_left hp.1] at h
  have hbehind : xs.drop (c + bs.length) = ys.drop (c + bs.length) := by
    have h := congrArg (List.drop (c + bs.length - (p + n))) hburst.behind
    rwa [List.drop_drop, List.drop_drop, Nat.add_sub_cancel' hp.2] at h
  rw [hsplit xs hat, hsplit ys hat', hbefore, hbehind]

/-- **The log ends at the damaged block**: those before it are all there is. -/
theorem complete_of_burst (hcrc : IeeeCrc32) {p n : ℕ} (hn : n ≤ 4) {xs ys : List UInt8}
    {before after : List Block} {block : Block} (hburst : Burst p n xs ys) (hne : xs ≠ ys)
    (hlog : blockLog.Holds xs streamHeaderLen (before ++ block :: after))
    (hhits : (streamEnd before + 14 ≤ p ∧ p + n ≤ streamEnd before + 18) ∨
      (streamEnd before + 18 ≤ p ∧ p + n ≤ streamEnd before + block.frame.length)) :
    blockLog.Complete ys streamHeaderLen before := by
  rw [List.append_cons] at hlog
  obtain ⟨hbefore, hacc, hat⟩ := LogFormat.holds_snoc.1 hlog.of_append
  have hmax : maxEncodedBlockBytes < 2 ^ 64 := by decide
  refine ⟨⟨hbefore.1, hburst.at_before hbefore.2 ?_⟩, fun block' hacc' hat' => hne ?_⟩
  · rw [streamEnd] at hhits
    omega
  · have hlen := block.length_frame
    rw [frameHeaderLen] at hlen
    have hsame := eq_of_burst_frame hcrc hn hburst (lt_of_le_of_lt hacc.1 hmax)
      (lt_of_le_of_lt hacc'.1 hmax) hhits hat hat'
    refine eq_of_hits hburst ?_ hat hsame
    rw [blockLog_bytes]
    rw [streamEnd] at hhits
    omega

/-- Behind the blocks in front of the damage there is neither the end of the stream nor a footer. -/
theorem not_stream_of_burst {p n : ℕ} {xs ys : List UInt8} {before after : List Block}
    {block : Block} {sealed : Bool} (hburst : Burst p n xs ys)
    (hlog : blockLog.Holds xs streamHeaderLen (before ++ block :: after))
    (hp : streamEnd before + 14 ≤ p) : ¬Stream ys before sealed := by
  intro hstream
  rw [List.append_cons] at hlog
  obtain ⟨-, -, hat⟩ := LogFormat.holds_snoc.1 hlog.of_append
  obtain ⟨hhead, -⟩ := Block.at_frame.1 hat
  have hmagic := hburst.at_before (at_append.1 hhead).1 (by
    show streamHeaderLen + _ + 4 ≤ p
    rw [streamEnd] at hp
    omega)
  have hrest : At ys (streamEnd before) (footerOf before sealed) := by
    have hdata := at_self ys
    rw [hstream.data_eq, at_append, at_append] at hdata
    rw [hstream.data_eq]
    have hat := hdata.2.2
    rwa [Nat.zero_add, length_writeStreamHeader] at hat
  cases sealed with
  | false =>
      have hlen := congrArg List.length hstream.data_eq
      have hle := hmagic.le
      rw [footerOf, if_neg Bool.false_ne_true, List.append_nil, length_header_append] at hlen
      have hfour : magicV1.length = 4 := rfl
      rw [streamEnd] at hlen
      omega
  | true =>
      rw [footerOf, if_pos rfl] at hrest
      have hindex : At ys (streamEnd before) indexMagicV1 := (at_append.1 hrest).1
      exact absurd (hmagic.eq_of_length hindex rfl) (by decide)

/-- A strict reader that accepts a stream has read the complete log behind its header. -/
theorem inspectJsonlStream_error {data : List UInt8} {blocks : List Block} (hfit : Fits data)
    (hlog : blockLog.Complete data streamHeaderLen blocks)
    (h : ∀ sealed, ¬Stream data blocks sealed) : ∃ e, inspectJsonlStream data = .error e := by
  refine exists_error_iff.2 fun report hreport => ?_
  obtain ⟨blocks', sealed, hstream, -⟩ := (inspectJsonlStream_ok hfit).1 hreport
  rw [LogFormat.complete_unique (hstream.complete hfit) hlog] at hstream
  exact h sealed hstream

variable [SerdeJson]

theorem decodeJsonlStream_error {data : List UInt8} {blocks : List Block} (schema : Schema)
    (hfit : Fits data) (hlog : blockLog.Complete data streamHeaderLen blocks)
    (h : ∀ sealed, ¬Stream data blocks sealed) : ∃ e, decodeJsonlStream data schema = .error e := by
  refine exists_error_iff.2 fun text htext => ?_
  obtain ⟨blocks', texts, hstream, -⟩ := (decodeJsonlStream_ok hfit).1 htext
  rw [LogFormat.complete_unique (hstream.complete hfit) hlog] at hstream
  exact h true hstream

/-- A replay depends on the recovered part of a log only. -/
theorem replayJsonlAppendStream_take {data : List UInt8} {blocks : List Block} (schema : Schema)
    (hfit : Fits data) (hheader : At data 0 writeStreamHeader)
    (hlog : appendLog.Complete data streamHeaderLen blocks)
    (hrows : blockRows blocks < 2 ^ 64) (hraw : blockRaw blocks < 2 ^ 64) :
    replayJsonlAppendStream data schema =
      replayJsonlAppendStream (data.take (streamEnd blocks)) schema := by
  obtain ⟨hholds, hcount⟩ := LogFormat.capped_holds.1 hlog.1
  have hend : streamEnd blocks ≤ data.length := hholds.le
  have hlen : (data.take (streamEnd blocks)).length = streamEnd blocks := by
    rw [List.length_take, Nat.min_eq_left hend]
  have hheader' : At (data.take (streamEnd blocks)) 0 writeStreamHeader :=
    hheader.take (by rw [length_writeStreamHeader, streamEnd]; omega)
  have hlog' : appendLog.Complete (data.take (streamEnd blocks)) streamHeaderLen blocks := by
    refine LogFormat.Holds.complete ⟨hlog.1.1, hlog.1.2.take (le_refl _)⟩ ?_
    rw [hlen]
    exact le_refl _
  have hrec := (recoverAppendStream_complete hfit hheader hlog).1 ⟨hrows, hraw⟩
  have hrec' := (recoverAppendStream_complete (hfit.take _) hheader' hlog').1 ⟨hrows, hraw⟩
  have hword : (UInt64.ofNat (streamEnd blocks)).toNat = streamEnd blocks :=
    toNat_ofNat (lt_of_le_of_lt hend hfit)
  rw [replayJsonlAppendStream, replayJsonlAppendStream, hrec, hrec']
  simp only [bind, Except.bind, appendRecoveryOf, hword, List.take_take, Nat.min_self]

variable [Blake3]

/-- **Recovery keeps the blocks in front of the damage, and only those.**  In a stream of which a
window of four bytes was damaged inside the payload of a block or inside its checksum, no strict
reader gets past the damage; recovery, replay and repair all end in front of that block. -/
theorem recoverAppendStream_burst (hcrc : IeeeCrc32) {p n k : ℕ} (hn : n ≤ 4) {xs ys : List UInt8}
    {r : AppendRecovery} {block : BlockMetadata} (hfit : Fits xs) (hburst : Burst p n xs ys)
    (hne : xs ≠ ys) (hrec : recoverAppendStream xs = .ok r) (hblock : r.blocks[k]? = some block)
    (hhits : HitsBlock block p n) :
    (∃ r', recoverAppendStream ys = .ok r' ∧ r'.blocks = r.blocks.take k ∧
      r'.validLen = block.encodedOffset ∧ r'.truncatedOrCorruptTail = true) ∧
    (∃ e, inspectJsonlStream ys = .error e) ∧
    (∀ schema, (∃ e, decodeJsonlStream ys schema = .error e) ∧
      replayJsonlAppendStream ys schema =
        replayJsonlAppendStream (xs.take block.encodedOffset.toNat) schema) ∧
    ∃ q, Storage.Repair.plan ys = .ok q ∧ q.action = .truncateTailAndRebuildFooter ∧
      q.recoveredUnits.toNat = k ∧ q.recoverableLen = block.encodedOffset := by
  have hfit' : Fits ys := by
    rw [Fits, ← hburst.length_eq]
    exact hfit
  rcases (recoverAppendStream_ok hfit).1 hrec with ⟨-, rfl⟩ | ⟨-, -, rfl⟩ |
    ⟨hheader, blocks, hlog, hrows, hraw, rfl⟩
  · cases hblock
  · cases hblock
  obtain ⟨before, hit, after, rfl, rfl, rfl, htake⟩ := metadataFrom_get hblock
  obtain ⟨hholds, hcount⟩ := LogFormat.capped_holds.1 hlog.1
  -- the damaged block lies inside the stream
  have hframe := hholds
  rw [List.append_cons] at hframe
  obtain ⟨-, -, hat⟩ := LogFormat.holds_snoc.1 hframe.of_append
  have hle := hat.le
  have hsize := hit.length_frame
  rw [blockLog_bytes] at hle
  rw [frameHeaderLen] at hsize
  have hword : xs.length < 2 ^ 64 := hfit
  have hlen := hburst.length_eq
  have hoffset' : (UInt64.ofNat (streamEnd before)).toNat = streamEnd before :=
    toNat_ofNat (by rw [streamEnd]; omega)
  have hoffset : (hit.metadata (streamEnd before)).encodedOffset.toNat = streamEnd before :=
    hoffset'
  rw [HitsBlock, BlockMetadata.endOffset, Block.metadata_size (by omega), hoffset] at hhits
  have hstart : streamEnd before + 14 ≤ p := by omega
  have hheader' := hburst.at_before hheader (by
    rw [length_writeStreamHeader]
    rw [streamEnd] at hstart
    omega)
  have hcomplete := complete_of_burst hcrc hn hburst hne hholds hhits
  have hstream : ∀ sealed, ¬Stream ys before sealed := fun sealed =>
    not_stream_of_burst hburst hholds hstart
  rw [List.length_append, List.length_cons] at hcount
  have hmax : maxStreamBlocks < 2 ^ 64 := by decide
  have hcapped : appendLog.Complete ys streamHeaderLen before := hcomplete.capped (by omega)
  rw [blockRows_append] at hrows
  rw [blockRaw_append] at hraw
  have hrec' := (recoverAppendStream_complete hfit' hheader' hcapped).1 ⟨by omega, by omega⟩
  have hend : streamEnd before < ys.length := by
    rw [streamEnd]
    omega
  refine ⟨⟨_, hrec', htake.symm, rfl, decide_eq_true hend⟩,
    inspectJsonlStream_error hfit' hcomplete hstream, fun schema =>
      ⟨decodeJsonlStream_error schema hfit' hcomplete hstream, ?_⟩, ?_⟩
  · have hbefore := congrArg (List.take (streamEnd before)) hburst.before
    rw [List.take_take, List.take_take, Nat.min_eq_left (by omega)] at hbefore
    rw [replayJsonlAppendStream_take schema hfit' hheader' hcapped (by omega) (by omega), hoffset,
      hbefore]
  · have hnone : Storage.Repair.sealedInspect ys = none := by
      obtain ⟨e, he⟩ := inspectJsonlStream_error hfit' hcomplete hstream
      rw [Storage.Repair.sealedInspect, he]
      rfl
    have hplan := (Storage.Repair.repairPlan_ok (p := Storage.Repair.planOf ys .v2
      (Storage.Repair.actionOf ys (streamEnd before)) (streamEnd before) before.length
      (UInt64.ofNat (blockRows before))) hfit' hend.le).2 ⟨by omega, rfl⟩
    refine ⟨Storage.Repair.planOf ys .v2 (Storage.Repair.actionOf ys (streamEnd before))
      (streamEnd before) before.length (UInt64.ofNat (blockRows before)), ?_, ?_, ?_, rfl⟩
    · rw [Storage.Repair.plan_detected hfit' (Storage.detect_stream hheader')]
      simp only [Storage.Repair.planAs, Storage.Repair.planCmp2, hnone, hrec', bind_ok,
        Except.ok.injEq, exists_eq_left', failIf_ok, UInt64.not_lt, UInt64.le_iff_toNat_le]
      refine ⟨(), ?_, ?_⟩
      · show 10 ≤ (UInt64.ofNat (streamEnd before)).toNat
        rw [hoffset', streamEnd, streamHeaderLen]
        exact Nat.le_add_right _ _
      · rw [show (appendRecoveryOf ys before).blocks = metadataFrom streamHeaderLen before from rfl,
          length_metadataFrom]
        exact hplan
    · exact if_neg (by omega)
    · exact toNat_ofNat (by omega)

end Streaming

/-! ### The reference checksum -/

namespace Reference

theorem crc32Bit_toBitVec (crc : UInt32) :
    (crc32Bit crc).toBitVec = Crc.shift Crc.ieeePoly crc.toBitVec := by
  have hlow :
      (crc &&& 1).toBitVec = BitVec.setWidth 32 (BitVec.ofBool (crc.toBitVec.getLsbD 0)) := by
    rw [UInt32.toBitVec_and]
    exact BitVec.and_one_eq_setWidth_ofBool_getLsbD
  unfold crc32Bit Crc.shift
  cases hbit : crc.toBitVec.getLsbD 0 with
  | false =>
      have hne : ¬crc &&& 1 = 1 := by
        intro h
        rw [h, hbit] at hlow
        exact absurd hlow (by decide)
      rw [if_neg hne, if_neg Bool.false_ne_true]
      rfl
  | true =>
      have heq : crc &&& 1 = 1 := by
        rw [hbit] at hlow
        exact UInt32.toBitVec_inj.1 (hlow.trans (by decide))
      rw [if_pos heq, if_pos rfl]
      rfl

theorem crc32Byte_toBitVec (crc : UInt32) (byte : UInt8) :
    (crc32Byte crc byte).toBitVec = Crc.feedByte Crc.ieeePoly crc.toBitVec byte := by
  have hbyte : (crc ^^^ byte.toUInt32).toBitVec = crc.toBitVec ^^^ BitVec.ofNat 32 byte.toNat := by
    rw [UInt32.toBitVec_xor]
    congr 1
    apply BitVec.eq_of_toNat_eq
    simp
  have hrange : List.range 8 = [0, 1, 2, 3, 4, 5, 6, 7] := rfl
  simp only [crc32Byte, hrange, List.foldl_cons, List.foldl_nil, crc32Bit_toBitVec, hbyte,
    Crc.feedByte, Crc.shifts]

/-- The reference checksum is CRC-32. -/
theorem crc32_eq_ieee (data : List UInt8) : crc32 data = Crc.ieee data := by
  have hfold : ∀ crc : UInt32,
      (data.foldl crc32Byte crc).toBitVec = Crc.feed Crc.ieeePoly crc.toBitVec data := by
    induction data with
    | nil => exact fun _ => rfl
    | cons byte data ih =>
        intro crc
        rw [List.foldl_cons, ih, crc32Byte_toBitVec, Crc.feed_cons]
  refine UInt32.toBitVec_inj.1 ?_
  rw [crc32, UInt32.toBitVec_xor, hfold]
  rfl

theorem ieeeCrc32 : letI := crc32Fast; IeeeCrc32 := crc32_eq_ieee

end Reference

namespace Io.V4

open scoped CompactCore.Reference

set_option maxRecDepth 8192 in
/-- One byte of a file of two row groups is damaged. -/
theorem validateFile_burst_one_byte : ∃ file footer,
    encodeJsonl Reference.idLines (Reference.idSchema .stored) ⟨1⟩ = .ok file ∧
      validateFile file = .ok footer ∧ (∃ e, validateFile (file.set 60 0xff) = .error e) ∧
        ∃ e, decodeJsonl (file.set 60 0xff) (Reference.idSchema .stored) = .error e := by
  obtain ⟨file, hencode, hfit, hne, hsome⟩ := Reference.exists_ok
    (x := encodeJsonl Reference.idLines (Reference.idSchema .stored) ⟨1⟩)
    (fun file => Fits file ∧ file ≠ file.set 60 0xff ∧
      (validateFile file).toOption.isSome = true) (by decide +kernel)
  obtain ⟨footer, hvalid⟩ := Option.isSome_iff_exists.1 hsome
  rw [toOption_eq_some] at hvalid
  obtain ⟨hrejected, -, hdecode⟩ := validateFile_burst Reference.ieeeCrc32
    (show 1 ≤ 4 by decide) hfit (Burst.of_set file 60 0xff) hne hvalid
  exact ⟨file, footer, hencode, hvalid, hrejected, hdecode _⟩

end Io.V4

namespace Streaming

open scoped CompactCore.Reference

set_option maxRecDepth 8192 in
theorem recoverAppendStream_burst_second_block : ∃ log r block r',
    appendJsonlStream [] idInput (Reference.idSchema .deltaVarintU64) ⟨1, 64⟩ = .ok log ∧
      recoverAppendStream log = .ok r ∧ r.blocks[1]? = some block ∧
        recoverAppendStream (log.set 130 0xff) = .ok r' ∧ r'.blocks = r.blocks.take 1 ∧
          r'.validLen = block.encodedOffset ∧ r'.truncatedOrCorruptTail = true := by
  have hrun : ∃ log,
      appendJsonlStream [] idInput (Reference.idSchema .deltaVarintU64) ⟨1, 64⟩ = .ok log ∧
        Fits log ∧ log ≠ log.set 130 0xff ∧
          ((recoverAppendStream log).toOption.any fun r =>
            r.blocks[1]?.any fun block => HitsBlock block 130 1) = true :=
    Reference.exists_ok _ (by decide +kernel)
  obtain ⟨log, happend, hfit, hne, hhit⟩ := hrun
  obtain ⟨r, hrec, hhit⟩ := Reference.exists_ok (fun r : AppendRecovery =>
    (r.blocks[1]?.any fun block => HitsBlock block 130 1) = true) (by simpa using hhit)
  obtain ⟨block, hblock, hhit⟩ := (Option.any_eq_true _ _).1 hhit
  obtain ⟨⟨r', hdamaged, hkept⟩, -⟩ := recoverAppendStream_burst Reference.ieeeCrc32
    (show 1 ≤ 4 by decide) hfit (Burst.of_set log 130 0xff) hne hrec hblock (of_decide_eq_true hhit)
  exact ⟨log, r, block, r', happend, hrec, hblock, hdamaged, hkept⟩

end Streaming

end CompactCore
