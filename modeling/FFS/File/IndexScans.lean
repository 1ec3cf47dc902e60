import FFS.File.IndexLinks

/-!
# The scans of the index end

Each round of a scan reads the block that the last one links to.  Where every link leads to a
block, and the last one out of the file or far enough, the scan ends.  A block that cannot be read
leaves the last one as it was, and only `FFSseek` notices that.
-/

namespace FFS

open Machine FFSReader

namespace FFSReader

variable {ignoreDefaultValues : Bool}
  {strToVal : List UInt8 → FMDataType → Int32 → Option (List UInt8)} {bytes : List UInt8}
  {rawFlag : Bool} {r : FFSReader} {cur mid : Cursor}

/-! ## The loops -/

/-- `FFSset_fpos` reads the blocks up to its position. -/
theorem coverFpos_returns (hsmall : SmallFile bytes) {fpos : Int}
    (hcovers : Covers ignoreDefaultValues strToVal bytes rawFlag fpos cur) :
    ∃ enough, ∀ fuel, enough ≤ fuel → ∀ r : FFSReader, r.Stands bytes rawFlag cur → ∃ result,
      r.coverFpos ignoreDefaultValues strToVal fuel fpos = .ok result := by
  induction hcovers with
  | @here cur tail last htail hlast hfpos =>
    refine ⟨1, fun fuel hfuel r h => ⟨(true, r), ?_⟩⟩
    obtain ⟨k, rfl⟩ : ∃ k, fuel = k + 1 := ⟨fuel - 1, by omega⟩
    rw [coverFpos, indexTail, h.indexes, htail]
    dsimp only
    rw [hlast]
    dsimp only
    rw [if_neg (by omega)]
  | @rejected cur tail last htail hlast hfpos hlink =>
    refine ⟨1, fun fuel hfuel r h => ⟨(false, (r.seekSet tail.nextIndexOffset).2), ?_⟩⟩
    obtain ⟨k, rfl⟩ : ∃ k, fuel = k + 1 := ⟨fuel - 1, by omega⟩
    have hrejected := seekSet_rejected r
    rw [← hlink] at hrejected
    rw [coverFpos, indexTail, h.indexes, htail]
    dsimp only
    rw [hlast]
    dsimp only
    rw [if_pos hfpos, if_neg (by rw [hrejected]; exact Bool.false_ne_true)]
  | @more cur next tail found last q htail hlast hfpos hlink hfound _ ih =>
    obtain ⟨enough, henough⟩ := ih
    refine ⟨max enough (2 * bytes.length + 11) + 1, fun fuel hfuel r h => ?_⟩
    obtain ⟨k, rfl⟩ : ∃ k, fuel = k + 1 := ⟨fuel - 1, by omega⟩
    obtain ⟨r', hread, hbetween⟩ := readIndex_link hsmall (between_seekSet h hfound.within) hfound
      (show _ ≤ k by omega)
    obtain ⟨result, hresult⟩ := henough k (by omega) r' hbetween.stands
    refine ⟨result, ?_⟩
    rw [coverFpos, indexTail, h.indexes, htail]
    dsimp only
    rw [hlast]
    dsimp only
    rw [if_pos hfpos, hlink, if_pos (seekSet_within hsmall hfound.within)]
    exact bind_eq_of_eq_ok hread hresult

theorem setFpos_returns (hsmall : SmallFile bytes) {fpos : Int}
    (hsets : SetsFpos ignoreDefaultValues strToVal bytes rawFlag fpos cur) :
    ∃ enough, ∀ fuel, enough ≤ fuel → ∀ r : FFSReader, r.Stands bytes rawFlag cur → ∃ result,
      r.setFpos ignoreDefaultValues strToVal fuel fpos = .ok result := by
  by_cases horg : cur.org = .indexed
  · obtain ⟨enough, henough⟩ := coverFpos_returns hsmall (hsets horg)
    refine ⟨enough, fun fuel hfuel r h => ?_⟩
    obtain ⟨result, hresult⟩ := henough fuel hfuel r h
    refine ⟨if result.1 then result.2.placeFpos fpos else (false, result.2), ?_⟩
    rw [setFpos, if_pos (h.org.trans horg)]
    exact bind_eq_of_eq_ok hresult rfl
  · refine ⟨0, fun fuel _ r h => ⟨r.placeFpos fpos, ?_⟩⟩
    rw [setFpos, if_neg (by rw [h.org]; exact horg)]

/-- The blocks of a place that has a data record go as far as it. -/
theorem Reaches.tail {dataItem : Int} {place : Option Cursor}
    (h : Reaches ignoreDefaultValues strToVal bytes rawFlag dataItem cur place) {cur' : Cursor}
    (hplace : place = some cur') :
    ∃ tail, cur'.indexes.getLast? = some tail ∧ dataItem ≤ tail.lastDataCount := by
  induction h with
  | here htail hitem =>
    cases hplace
    exact ⟨_, htail, hitem⟩
  | missing => cases hplace
  | more htail hitem hlink hfound hmore ih => exact ih hplace

/-- What `FFSseek` knows behind its loop. -/
structure Covered (bytes : List UInt8) (rawFlag : Bool) (dataItem : Int) (place : Option Cursor)
    (r : FFSReader) : Prop where
  found : ∀ cur, place = some cur → r.Stands bytes rawFlag cur
  missing : place = none → r.indexTail.all (·.lastDataCount < dataItem) = true

/-- `FFSseek` reads the blocks up to a data record. -/
theorem coverItem_returns (hsmall : SmallFile bytes) {dataItem : Int} {place : Option Cursor}
    (hreaches : Reaches ignoreDefaultValues strToVal bytes rawFlag dataItem cur place) :
    ∃ enough, ∀ fuel, enough ≤ fuel → ∀ (r : FFSReader) (prev : Nat), r.Stands bytes rawFlag cur →
      cur.indexes.length ≠ prev → ∃ there r',
        r.coverItem ignoreDefaultValues strToVal fuel dataItem prev = .ok (there, r') ∧
          (there = true → Covered bytes rawFlag dataItem place r') := by
  induction hreaches with
  | @here cur tail htail hitem =>
    refine ⟨1, fun fuel hfuel r prev h _ => ⟨true, r, ?_, fun _ => ⟨?_, nofun⟩⟩⟩
    · obtain ⟨k, rfl⟩ : ∃ k, fuel = k + 1 := ⟨fuel - 1, by omega⟩
      rw [coverItem, indexTail, h.indexes, htail]
      dsimp only
      rw [if_neg (fun hmore => absurd hmore.1 (by omega))]
    · intro cur' hcur'
      cases hcur'
      exact h
  | @missing cur tail q htail hitem hlink hmissing =>
    refine ⟨2 * bytes.length + 12, fun fuel hfuel r prev h hprev => ?_⟩
    obtain ⟨k, rfl⟩ : ∃ k, fuel = k + 1 := ⟨fuel - 1, by omega⟩
    have hgoes : tail.lastDataCount < dataItem ∧ r.indexes.length ≠ prev := by
      rw [h.indexes]
      exact ⟨hitem, hprev⟩
    have hfirst : r.indexTail = some tail := by
      rw [indexTail, h.indexes, htail]
    cases hthere : (r.seekSet q).1 with
    | false =>
      refine ⟨false, (r.seekSet q).2, ?_, nofun⟩
      rw [coverItem, hfirst]
      dsimp only
      rw [if_pos hgoes, hlink, if_neg (by rw [hthere]; exact Bool.false_ne_true)]
    | true =>
      obtain ⟨r', hread, hindexes⟩ := readIndex_noLink hsmall h hmissing (show _ ≤ k by omega)
      obtain ⟨j, rfl⟩ : ∃ j, k = j + 1 := ⟨k - 1, by omega⟩
      have htail' : r'.indexTail = some tail := by
        rw [indexTail, hindexes]
        exact hfirst
      refine ⟨true, r', ?_, fun _ => ⟨nofun, fun _ => ?_⟩⟩
      · have hagain : r'.coverItem ignoreDefaultValues strToVal (j + 1) dataItem
            r.indexes.length = .ok (true, r') := by
          rw [coverItem, htail']
          dsimp only
          rw [if_neg (fun hmore => hmore.2 (congrArg List.length hindexes))]
        rw [coverItem, hfirst]
        dsimp only
        rw [if_pos hgoes, hlink, if_pos hthere]
        exact bind_eq_of_eq_ok hread hagain
      · rw [htail']
        exact decide_eq_true hitem
  | @more cur next place tail found q htail hitem hlink hfound hmore ih =>
    obtain ⟨enough, henough⟩ := ih
    refine ⟨max enough (2 * bytes.length + 11) + 1, fun fuel hfuel r prev h hprev => ?_⟩
    obtain ⟨k, rfl⟩ : ∃ k, fuel = k + 1 := ⟨fuel - 1, by omega⟩
    obtain ⟨r', hread, hbetween⟩ := readIndex_link hsmall (between_seekSet h hfound.within) hfound
      (show _ ≤ k by omega)
    have hadds : next.indexes.length ≠ r.indexes.length := by
      have hnext : next.indexes = cur.indexes ++ [found] := hfound.adds_index
      rw [hnext, h.indexes, List.length_append, List.length_singleton]
      omega
    obtain ⟨there, r'', hcover, hcovered⟩ :=
      henough k (by omega) r' r.indexes.length hbetween.stands hadds
    refine ⟨there, r'', ?_, hcovered⟩
    have hgoes : tail.lastDataCount < dataItem ∧ r.indexes.length ≠ prev := by
      rw [h.indexes]
      exact ⟨hitem, hprev⟩
    rw [coverItem, indexTail, h.indexes, htail]
    dsimp only
    rw [← h.indexes, if_pos hgoes, hlink, if_pos (seekSet_within hsmall hfound.within)]
    exact bind_eq_of_eq_ok hread hcover

/-- `FFSseek` behind the first block. -/
theorem seekIndexed_returns (hsmall : SmallFile bytes) {dataItem : Int} {place : Option Cursor}
    (hsome : cur.indexes ≠ [])
    (hreaches : Reaches ignoreDefaultValues strToVal bytes rawFlag dataItem cur place)
    (hplace : ∀ cur', place = some cur' →
      Lists ignoreDefaultValues strToVal bytes rawFlag dataItem cur') :
    ∃ enough, ∀ fuel, enough ≤ fuel → ∀ r : FFSReader, r.Stands bytes rawFlag cur →
      ∃ r', r.seekIndexed ignoreDefaultValues strToVal fuel dataItem = .ok (0, r') := by
  obtain ⟨enough, henough⟩ := coverItem_returns hsmall hreaches
  have hlength : cur.indexes.length ≠ 0 := fun hzero => hsome (List.length_eq_zero_iff.mp hzero)
  cases place with
  | none =>
    refine ⟨enough, fun fuel hfuel r h => ?_⟩
    obtain ⟨there, r', hcover, hcovered⟩ := henough fuel hfuel r 0 h hlength
    refine ⟨r', ?_⟩
    rw [seekIndexed]
    refine bind_eq_of_eq_ok hcover ?_
    cases there with
    | false => rfl
    | true =>
      dsimp only
      rw [if_neg (by decide), if_pos ((hcovered rfl).missing rfl)]
      rfl
  | some cur' =>
    obtain ⟨index, elem, hindex, helem, hsets⟩ := hplace cur' rfl
    obtain ⟨tail, htail, hitem⟩ := Reaches.tail hreaches rfl
    obtain ⟨enoughSet, henoughSet⟩ := setFpos_returns hsmall hsets
    refine ⟨max enough enoughSet, fun fuel hfuel r h => ?_⟩
    obtain ⟨there, r', hcover, hcovered⟩ := henough fuel (by omega) r 0 h hlength
    cases there with
    | false =>
      refine ⟨r', ?_⟩
      rw [seekIndexed]
      exact bind_eq_of_eq_ok hcover rfl
    | true =>
      have hstands := (hcovered rfl).found cur' rfl
      obtain ⟨result, hset⟩ := henoughSet fuel (by omega) r' hstands
      have hreached : ¬ r'.indexTail.all (·.lastDataCount < dataItem) = true := by
        rw [indexTail, hstands.indexes, htail]
        exact fun hall => absurd (of_decide_eq_true hall) (by omega)
      have hfpos : r'.dataItemFpos dataItem = .ok elem.fpos.toInt := by
        rw [dataItemFpos, hstands.indexes, hindex]
        dsimp only
        rw [helem]
      refine ⟨{ result.2 with dataBlockNo := 0 }, ?_⟩
      rw [seekIndexed]
      refine bind_eq_of_eq_ok hcover ?_
      dsimp only
      rw [if_neg (by decide), if_neg hreached]
      exact bind_eq_of_eq_ok hfpos (bind_eq_of_eq_ok hset rfl)

theorem element_of_drop {elements others : List FFSIndexElement} {elem : FFSIndexElement} {i : Nat}
    (h : elements.drop i = elem :: others) :
    elements[i]? = some elem ∧ elements.drop (i + 1) = others := by
  constructor
  · rw [← Nat.add_zero i, ← List.getElem?_drop, h]
    rfl
  · rw [← List.tail_drop, h]
    rfl

/-- The formats that a block lists are read. -/
theorem readFormats_returns (hsmall : SmallFile bytes) {elements : List FFSIndexElement}
    {cur' : Cursor} {tail : FFSIndexItem} (htail : cur.indexes.getLast? = some tail)
    (hformats : FormatsRead ignoreDefaultValues strToVal bytes rawFlag cur elements cur') :
    ∃ enough, ∀ fuel, enough ≤ fuel → ∀ (r : FFSReader) (i : Nat), r.Between bytes rawFlag cur →
      tail.elements.drop i = elements →
      ∃ r', r.readFormats ignoreDefaultValues strToVal fuel i = .ok (true, r') ∧
        r'.Between bytes rawFlag cur' := by
  have hlast : ∀ {r : FFSReader} {cur : Cursor}, r.Stands bytes rawFlag cur →
      cur.indexes.getLast? = some tail → r.indexTail = some tail := by
    intro r cur h htail
    rw [indexTail, h.indexes, htail]
  induction hformats with
  | nil cur =>
    refine ⟨1, fun fuel hfuel r i h hi => ⟨r, ?_, h⟩⟩
    obtain ⟨k, rfl⟩ : ∃ k, fuel = k + 1 := ⟨fuel - 1, by omega⟩
    have helem : tail.elements[i]? = none := List.getElem?_eq_none (List.drop_eq_nil_iff.mp hi)
    rw [readFormats, hlast h.stands htail]
    dsimp only
    rw [helem]
  | @skip cur cur' elem elements htype _ ih =>
    obtain ⟨enough, henough⟩ := ih htail
    refine ⟨enough + 1, fun fuel hfuel r i h hi => ?_⟩
    obtain ⟨k, rfl⟩ : ∃ k, fuel = k + 1 := ⟨fuel - 1, by omega⟩
    obtain ⟨helem, hothers⟩ := element_of_drop hi
    obtain ⟨r', hread, hbetween⟩ := henough k (by omega) r (i + 1) h hothers
    refine ⟨r', ?_, hbetween⟩
    rw [readFormats, hlast h.stands htail]
    dsimp only
    rw [helem]
    dsimp only
    rw [if_neg htype]
    exact hread
  | @format cur mid cur' elem elements p htype hfpos hformat _ ih =>
    obtain ⟨enough, henough⟩ := ih (by rw [hformat.keeps_indexes]; exact htail)
    refine ⟨max enough (2 * bytes.length + 11) + 1, fun fuel hfuel r i h hi => ?_⟩
    obtain ⟨k, rfl⟩ : ∃ k, fuel = k + 1 := ⟨fuel - 1, by omega⟩
    obtain ⟨helem, hothers⟩ := element_of_drop hi
    obtain ⟨handle, r₁, hread, hbetween⟩ :=
      readFormat_link hsmall (Between.seekSet h hformat.within) hformat (show _ ≤ k by omega)
    obtain ⟨r', hreads, hbetween'⟩ := henough k (by omega) r₁ (i + 1) hbetween hothers
    refine ⟨r', ?_, hbetween'⟩
    rw [readFormats, hlast h.stands htail]
    dsimp only
    rw [helem]
    dsimp only
    rw [if_pos htype, hfpos, if_pos (seekSet_within hsmall hformat.within)]
    exact bind_eq_of_eq_ok hread hreads

/-- All the blocks are read, up to the one that links to the end of the file. -/
theorem scanBlocks_returns (hsmall : SmallFile bytes) {cur' : Cursor}
    (hscans : Scans ignoreDefaultValues strToVal bytes rawFlag cur cur') :
    ∃ enough, ∀ fuel, enough ≤ fuel → ∀ (r : FFSReader) (fpos : Int),
      r.Between bytes rawFlag cur → fpos ≠ bytes.length →
      ∃ r', scanBlocks ignoreDefaultValues strToVal fuel fpos bytes.length r = .ok (true, r') ∧
        r'.Between bytes rawFlag cur' := by
  have hlast : ∀ {r : FFSReader} {cur : Cursor} {tail : FFSIndexItem},
      r.Stands bytes rawFlag cur → cur.indexes.getLast? = some tail → r.indexTail = some tail := by
    intro r cur tail h htail
    rw [indexTail, h.indexes, htail]
  induction hscans with
  | @last cur cur' tail htail hformats hlink =>
    obtain ⟨enough, henough⟩ := readFormats_returns hsmall htail hformats
    refine ⟨enough + 2, fun fuel hfuel r fpos h hfpos => ?_⟩
    obtain ⟨k, rfl⟩ : ∃ k, fuel = k + 2 := ⟨fuel - 2, by omega⟩
    obtain ⟨r', hread, hbetween⟩ := henough (k + 1) (by omega) r 0 h rfl
    refine ⟨r', ?_, hbetween⟩
    have hdone : scanBlocks ignoreDefaultValues strToVal (k + 1) tail.nextIndexOffset bytes.length
        r' = .ok (true, r') := by
      rw [scanBlocks, if_pos hlink]
    rw [scanBlocks, if_neg hfpos]
    refine bind_eq_of_eq_ok hread ?_
    dsimp only
    rw [if_neg (by decide), hlast hbetween.stands (hformats.keeps_tail htail)]
    dsimp only
    rw [if_pos hlink]
    exact hdone
  | @more cur mid next cur' tail found q htail hformats hlink hq hfound _ ih =>
    obtain ⟨enoughFormats, henoughFormats⟩ := readFormats_returns hsmall htail hformats
    obtain ⟨enough, henough⟩ := ih
    refine ⟨max (max enough enoughFormats) (2 * bytes.length + 11) + 1,
      fun fuel hfuel r fpos h hfpos => ?_⟩
    obtain ⟨k, rfl⟩ : ∃ k, fuel = k + 1 := ⟨fuel - 1, by omega⟩
    obtain ⟨r₁, hformats', hbetween⟩ := henoughFormats k (by omega) r 0 h rfl
    obtain ⟨r₂, hread, hbetween'⟩ := readIndex_link hsmall
      (Between.seekSet hbetween hfound.within) hfound (show _ ≤ k by omega)
    have hq' : (q : Int) ≠ bytes.length := fun heq => hq (Int.ofNat_inj.mp heq)
    obtain ⟨r', hscan, hbetween''⟩ := henough k (by omega) r₂ q hbetween' hq'
    refine ⟨r', ?_, hbetween''⟩
    rw [scanBlocks, if_neg hfpos]
    refine bind_eq_of_eq_ok hformats' ?_
    dsimp only
    rw [if_neg (by decide), hlast hbetween.stands (hformats.keeps_tail htail)]
    dsimp only
    rw [hlink, if_neg hq', if_pos (seekSet_within hsmall hfound.within)]
    exact bind_eq_of_eq_ok hread hscan

/-! ## The calls -/

theorem firstIndex_of_none {fuel : Nat} {r' : FFSReader} {item : Option FFSIndexItem}
    (hr : r.indexes = [])
    (hread : r.readIndex ignoreDefaultValues strToVal fuel = .ok (item, r')) :
    r.firstIndex ignoreDefaultValues strToVal fuel = .ok r' := by
  rw [firstIndex, if_pos hr, hread]
  rfl

theorem seek_returns (hsmall : SmallFile bytes) {dataItem : Int}
    (hseeks : Seeks ignoreDefaultValues strToVal bytes rawFlag dataItem r) :
    ∃ enough, ∀ fuel, enough ≤ fuel →
      ∃ r', r.seek ignoreDefaultValues strToVal fuel dataItem = .ok (0, r') := by
  by_cases hnegative : dataItem < 0
  · refine ⟨0, fun fuel _ => ⟨r, ?_⟩⟩
    rw [seek, if_pos hnegative]
  · cases hseeks with
    | negative h => exact absurd h hnegative
    | unindexed hr he hfinds =>
      refine ⟨2 * bytes.length + 11, fun fuel hfuel => ?_⟩
      obtain ⟨r', hread, hindexes⟩ := readIndex_missing hsmall hfinds hfuel
      refine ⟨r', ?_⟩
      rw [seek, if_neg hnegative]
      exact bind_eq_of_eq_ok (firstIndex_of_none hr hread) (if_pos (hindexes.trans he))
    | first hr hmid hfinds hreaches hplace =>
      obtain ⟨enough, henough⟩ := seekIndexed_returns hsmall hmid hreaches hplace
      refine ⟨max enough (2 * bytes.length + 11), fun fuel hfuel => ?_⟩
      obtain ⟨r₁, hread, hbetween⟩ := readIndex_found hsmall hfinds (show _ ≤ fuel by omega)
      obtain ⟨r', hseek⟩ := henough fuel (by omega) r₁ hbetween.stands
      refine ⟨r', ?_⟩
      have hsome : r₁.indexes ≠ [] := by
        rw [hbetween.stands.indexes]
        exact hmid
      rw [seek, if_neg hnegative]
      exact bind_eq_of_eq_ok (firstIndex_of_none hr hread) ((if_neg hsome).trans hseek)
    | further hstands hr hreaches hplace =>
      have hsome := hr
      rw [hstands.indexes] at hsome
      obtain ⟨enough, henough⟩ := seekIndexed_returns hsmall hsome hreaches hplace
      refine ⟨enough, fun fuel hfuel => ?_⟩
      obtain ⟨r', hseek⟩ := henough fuel hfuel r hstands
      refine ⟨r', ?_⟩
      rw [seek, if_neg hnegative, firstIndex, if_neg hr]
      exact (if_neg hr).trans hseek

theorem readBlocks_returns (hsmall : SmallFile bytes) {cur' : Cursor}
    (hscans : Scans ignoreDefaultValues strToVal bytes rawFlag { cur with org := .indexed } cur')
    (hlength : bytes.length ≠ 1) :
    ∃ enough, ∀ fuel, enough ≤ fuel → ∀ r : FFSReader, r.Between bytes rawFlag cur →
      ∃ r', r.readBlocks ignoreDefaultValues strToVal fuel bytes.length = .ok r' ∧
        r'.Stands bytes rawFlag { cur' with pos := bytes.length } := by
  obtain ⟨enough, henough⟩ := scanBlocks_returns hsmall hscans
  refine ⟨enough, fun fuel hfuel r h => ?_⟩
  let r₁ : FFSReader := { r with file := { r.file with fileOrg := .indexed } }
  have hstands := h.stands
  have hbetween : r₁.Between bytes rawFlag { cur with org := .indexed } :=
    ⟨⟨hstands.status, hstands.raw, hstands.disk, rfl, hstands.context, hstands.indexes,
      hstands.buffer, hstands.proper, hstands.resumed⟩, h.ahead, h.within⟩
  obtain ⟨r₂, hscan, hbetween₂⟩ := henough fuel hfuel r₁ 1 hbetween (by omega)
  have hend : (r₂.file.disk.lseek 0 .fromEnd).2 = ⟨bytes, bytes.length⟩ := by
    rw [hbetween₂.stands.disk, Disk.lseek_end _ hsmall]
  refine ⟨{ r₂.withDisk ⟨bytes, bytes.length⟩ with
    file := updateFpos (r₂.withDisk ⟨bytes, bytes.length⟩).file }, ?_,
    hbetween₂.stands.moved rfl rfl (updateFpos_fileOrg _) (updateFpos_curIndex _) rfl rfl
      (updateFpos_disk _) hbetween₂.stands.buffer⟩
  rw [readBlocks, ← hend]
  exact bind_eq_of_eq_ok hscan (if_pos rfl)

/-- `init_write_index_block` only moves in the file. -/
theorem initWriteIndexBlock_stands (h : r.Stands bytes rawFlag cur)
    (hsome : r.file.curIndex.isSome = true) :
    ∃ pos, { r with file := initWriteIndexBlock r.file }.Stands bytes rawFlag { cur with pos } := by
  unfold initWriteIndexBlock
  cases hread : r.file.readIndex with
  | some item =>
    exact ⟨cur.pos, { status := h.status, raw := h.raw, disk := h.disk, org := h.org,
                      context := h.context, indexes := h.indexes, buffer := h.buffer,
                      proper := h.proper, resumed := fun _ => hsome }⟩
  | none =>
    have hdisk : (r.file.disk.lseek INDEX_BLOCK_SIZE .cur).2 =
        ⟨bytes, cur.pos + INDEX_BLOCK_SIZE⟩ := by
      rw [h.disk]
      simp only [Disk.lseek]
      rw [if_neg (by omega)]
      rfl
    exact ⟨cur.pos + INDEX_BLOCK_SIZE,
      { status := h.status, raw := h.raw, disk := hdisk, org := h.org, context := h.context,
        indexes := h.indexes, buffer := h.buffer, proper := h.proper, resumed := fun _ => rfl }⟩

/-- `FFSset_fpos` has no block to read where the last one lists something that is not in front. -/
theorem setFpos_here (ignoreDefaultValues : Bool)
    (strToVal : List UInt8 → FMDataType → Int32 → Option (List UInt8))
    (h : r.Stands bytes rawFlag cur) {tail : FFSIndexItem} {last : FFSIndexElement}
    (htail : cur.indexes.getLast? = some tail)
    (hlast : tail.elements.getLast? = some last) {fpos : Int} (hfpos : fpos ≤ last.fpos.toInt)
    (fuel : Nat) :
    r.setFpos ignoreDefaultValues strToVal (fuel + 1) fpos = .ok (r.placeFpos fpos) := by
  have hcover : r.coverFpos ignoreDefaultValues strToVal (fuel + 1) fpos = .ok (true, r) := by
    rw [coverFpos, indexTail, h.indexes, htail]
    dsimp only
    rw [hlast]
    dsimp only
    rw [if_neg (by omega)]
  rw [setFpos, hcover]
  split <;> rfl

/-- The last block is read again into the memory of a block. -/
theorem refillBlock_returns (hsmall : SmallFile bytes) {rest : Nat}
    (h : HasIndexHead bytes rawFlag (4 + rest) cur r)
    (hsome : r.file.curIndex.isSome = true) (hwithin : cur.pos + rest ≤ bytes.length)
    (hfits : 4 + rest ≤ INDEX_BLOCK_SIZE) (item : FFSIndexItem) :
    ∃ r', r.refillBlock item = .ok r' ∧ r'.indexes = cur.indexes := by
  obtain ⟨w, hw⟩ := Option.isSome_iff_exists.mp hsome
  have hread := Disk.read_whole (lt_of_le_of_lt (by omega) hsmall) hwithin
  have hsize : (r.nextDataLen : Int) - 4 = (rest : Nat) := by
    rw [h.len]
    omega
  have hfunc : r.readFunc (INDEX_BLOCK_SIZE - 4) ((r.nextDataLen : Int) - 4) =
      .ok ((bytes.drop cur.pos).take rest, (rest : Int), r.withDisk ⟨bytes, cur.pos + rest⟩) := by
    rw [hsize]
    exact readFunc_eq h.stands.disk (by omega) hread
  rw [refillBlock, if_neg (not_not_intro h.type), hw]
  dsimp only
  rw [hfunc]
  exact ⟨_, if_neg (not_not_intro hsize.symm), h.stands.indexes⟩

/-- The last block is found again, where an element that it lists does not stand in front of it. -/
theorem convertLastIndexBlock_returns (ignoreDefaultValues : Bool)
    (strToVal : List UInt8 → FMDataType → Int32 → Option (List UInt8))
    (hsmall : SmallFile bytes) (h : r.Stands bytes rawFlag cur)
    {tail : FFSIndexItem} {last : FFSIndexElement} (htail : cur.indexes.getLast? = some tail)
    (hlast : tail.elements.getLast? = some last) (hbehind : tail.thisIndexFpos ≤ last.fpos.toInt)
    (hblock : BlockAt bytes tail) (hlink : tail.nextIndexOffset = bytes.length) (fuel : Nat) :
    ∃ r', r.convertLastIndexBlock ignoreDefaultValues strToVal (fuel + 1) = .ok r' ∧
      r'.indexes = cur.indexes := by
  obtain ⟨place, rest, hplace, hhead, hwithin, hfits⟩ := hblock
  have hlinked : ∃ item ∈ cur.indexes, item.nextIndexOffset = bytes.length :=
    ⟨tail, List.mem_of_getLast? htail, hlink⟩
  obtain ⟨pos, hstands⟩ := initWriteIndexBlock_stands h (h.resumed hlinked)
  have hset := setFpos_here ignoreDefaultValues strToVal
    hstands htail hlast hbehind fuel
  have hfirst : ({ r with file := initWriteIndexBlock r.file } : FFSReader).indexTail =
      some tail := by
    rw [indexTail, hstands.indexes, htail]
  have hthere := between_seekSet hstands (show place ≤ bytes.length by omega)
  rw [hplace, placeFpos] at hset
  dsimp only at hset
  rw [if_pos (seekSet_within hsmall (show place ≤ bytes.length by omega))] at hset
  obtain ⟨r₂, hnext, hhead₂⟩ := next_indexHead ignoreDefaultValues strToVal hthere hhead fuel
  obtain ⟨r', hrefill, hindexes⟩ := refillBlock_returns hsmall hhead₂
    (hhead₂.stands.resumed hlinked) hwithin (hfits hlink) tail
  refine ⟨r', ?_, hindexes⟩
  rw [convertLastIndexBlock]
  dsimp only
  rw [hfirst]
  dsimp only
  rw [hplace]
  exact bind_eq_of_eq_ok hset (bind_eq_of_eq_ok hnext hrefill)

theorem openAppend_returns {context : FFSContext} (hproper : ProperContext context)
    {body : List UInt8} (hsmall : SmallFile (beBytes 4 MAGIC_NUMBER ++ body))
    {indexes : List FFSIndexItem}
    (hopens : Opens ignoreDefaultValues strToVal (beBytes 4 MAGIC_NUMBER ++ body) rawFlag
      ⟨context, [], 4, .simple⟩ indexes) :
    ∃ enough, ∀ fuel, enough ≤ fuel → ∃ r',
      (opened rawFlag context body).openAppend ignoreDefaultValues strToVal fuel =
        .ok r' ∧ r'.indexes = indexes := by
  have hbetween := between_opened hproper rawFlag body
  have hfour : 4 < 2 ^ 31 := by decide
  obtain ⟨hend, hback⟩ := seek_back hsmall hbetween.stands.disk hfour
  have hnone : (opened rawFlag context body).indexes = [] := rfl
  cases hopens with
  | @unindexed items e hitems hreads hends =>
    refine ⟨2 * (beBytes 4 MAGIC_NUMBER ++ body).length + 11, fun fuel hfuel => ?_⟩
    obtain ⟨r', hread, hindexes⟩ := readIndex_missing hsmall
      (.ends hitems hends (.inl ⟨_, hbetween, hreads⟩)) hfuel
    have hempty : r'.indexes = [] :=
      hindexes.trans (Reads.keeps_indexes hreads (no_index_of_recordsFrom hitems))
    have hall : (opened rawFlag context body).readAllIndexAndFormats ignoreDefaultValues strToVal
        fuel = .ok r' := by
      rw [readAllIndexAndFormats, hback]
      exact bind_eq_of_eq_ok (firstIndex_of_none hnone hread) (if_pos hempty)
    have htail : ({ r' with file := initWriteIndexBlock r'.file } : FFSReader).indexTail = none := by
      rw [indexTail, hempty]
      rfl
    have hconvert : r'.convertLastIndexBlock ignoreDefaultValues strToVal fuel =
        .ok { r' with file := initWriteIndexBlock r'.file } := by
      rw [convertLastIndexBlock]
      dsimp only
      rw [htail]
    exact ⟨{ r' with file := initWriteIndexBlock r'.file, status := .openForWrite },
      bind_eq_of_eq_ok hall (bind_eq_of_eq_ok hconvert rfl), hempty⟩
  | @indexed mid cur' found hfound hscans tail last htail hlast hbehind =>
    have hlength : (beBytes 4 MAGIC_NUMBER ++ body).length ≠ 1 := by
      rw [List.length_append, length_beBytes]
      omega
    obtain ⟨hblock, hlink⟩ := hscans.blockAt (fun item hitem => by
      have hadded := hfound.adds_index
      rw [hadded, List.getLast?_concat] at hitem
      cases hitem
      exact hfound.blockAt) htail
    obtain ⟨enough, henough⟩ := readBlocks_returns hsmall hscans hlength
    refine ⟨max enough (2 * (beBytes 4 MAGIC_NUMBER ++ body).length + 11), fun fuel hfuel => ?_⟩
    obtain ⟨k, rfl⟩ : ∃ k, fuel = k + 1 := ⟨fuel - 1, by omega⟩
    obtain ⟨r₁, hread, hbetween₁⟩ := readIndex_link hsmall hbetween hfound
      (show _ ≤ k + 1 by omega)
    have hsome : r₁.indexes ≠ [] := by
      rw [hbetween₁.stands.indexes, hfound.adds_index]
      exact List.append_ne_nil_of_right_ne_nil _ (List.cons_ne_nil _ _)
    obtain ⟨r₂, hblocks, hstands⟩ := henough (k + 1) (by omega) r₁ hbetween₁
    have hall : (opened rawFlag context body).readAllIndexAndFormats ignoreDefaultValues strToVal
        (k + 1) = .ok r₂ := by
      rw [readAllIndexAndFormats, hback, hend]
      exact bind_eq_of_eq_ok (firstIndex_of_none hnone hread) ((if_neg hsome).trans hblocks)
    obtain ⟨r', hconvert, hindexes⟩ := convertLastIndexBlock_returns
      ignoreDefaultValues strToVal hsmall hstands htail hlast
      hbehind hblock hlink k
    exact ⟨{ r' with status := .openForWrite },
      bind_eq_of_eq_ok hall (bind_eq_of_eq_ok hconvert rfl), hindexes⟩

/-- A block that lists nothing and links to the end of the file. -/
def oneBlock : List UInt8 := [4, 0, 0, 20, 0, 0, 0, 24, 0, 0, 0, 0, 0, 0, 0, 0, 0, 0, 0, 255]

def oneBlockItem : FFSIndexItem :=
  { nextIndexOffset := 24, thisIndexFpos := 4, startDataCount := 0, lastDataCount := 0,
    endItemOffset := 16, elements := [] }

/-- The block is found at the beginning of a file. -/
theorem indexFrom_oneBlock (rest : List UInt8) :
    IndexFrom false (fun _ _ _ => none) (beBytes 4 MAGIC_NUMBER ++ (oneBlock ++ rest)) false
      ⟨FFSContext.create ⟨[], false⟩, [], 4, .simple⟩ oneBlockItem
      ⟨FFSContext.create ⟨[], false⟩, [oneBlockItem], 24, .simple⟩ := by
  have hword : word (beBytes 4 MAGIC_NUMBER ++ (oneBlock ++ rest)) 4 = some (4 * 2 ^ 24 + 20) := by
    rw [← List.append_assoc, word, span_append rest (show _ = some [4, 0, 0, 20] by decide)]
    decide
  have hblock : span (beBytes 4 MAGIC_NUMBER ++ (oneBlock ++ rest)) 8 16 =
      some (oneBlock.drop 4) := by
    rw [← List.append_assoc]
    exact span_append rest (by decide)
  have hparse : parseIndexBlock (List.replicate 4 0 ++ oneBlock.drop 4) =
      some { oneBlockItem with thisIndexFpos := 0 } := by
    decide
  refine ⟨[], _, rfl, .refl _, ?_⟩
  exact .index ⟨4 * 2 ^ 24 + 20, hword, by decide, by decide⟩ hblock hparse (fun _ => by decide)

/-- A block that lists one data record. -/
def dataBlock (next fpos : UInt8) : List UInt8 :=
  [4, 0, 0, 44, 0, 0, 0, next, 0, 0, 0, 0, 0, 0, 0, 0] ++
    [0, 0, 12, 1, 0, 0, 0, 0, 0, 0, 0, fpos, 0, 0, 0, 8] ++ List.replicate 8 7 ++ [0, 0, 0, 255]

def dataBlockItem (place : Nat) (next fpos : UInt8) : FFSIndexItem :=
  { nextIndexOffset := next.toNat, thisIndexFpos := place, startDataCount := 0, lastDataCount := 0,
    endItemOffset := 40,
    elements := [{ type := some .ffsData, fpos := fpos.toUInt64.toInt64,
                   formatId := [0, 0, 0, 8, 7, 7, 7, 7], attrs := none }] }

/-- Two blocks, with a comment between them. -/
def twoBlocks : List UInt8 := dataBlock 48 48 ++ [1, 0, 0, 1, 120] ++ dataBlock 97 97

/-- What a block that is cut off leaves behind: the head of one, unless nothing was read ahead. -/
structure Repeats (bytes : List UInt8) (rawFlag : Bool) (indexes : List FFSIndexItem) (rest : Nat)
    (r : FFSReader) : Prop where
  stands : ∃ cur, cur.indexes = indexes ∧ r.Stands bytes rawFlag cur
  ahead : r.readAhead = true → r.nextRecordType = some .ffsIndex ∧ r.nextDataLen = rest

theorem HasIndexHead.repeats {rest : Nat} (h : HasIndexHead bytes rawFlag rest cur r) :
    Repeats bytes rawFlag cur.indexes rest r :=
  ⟨⟨cur, rfl, h.stands⟩, fun _ => ⟨h.type, h.len⟩⟩

/-- A link to a block that is cut off is followed in vain, however often. -/
theorem readIndex_repeats (hsmall : SmallFile bytes) {q rest : Nat}
    (hhead : HeadAt bytes q 0x4 rest) (hrest : 4 < rest)
    (hcut : bytes.length < q + (rest - 4)) {indexes : List FFSIndexItem}
    (h : Repeats bytes rawFlag indexes rest r) {fuel : Nat}
    {result : Option FFSIndexItem × FFSReader}
    (hread : (r.seekSet q).2.readIndex ignoreDefaultValues strToVal fuel = .ok result) :
    Repeats bytes rawFlag indexes rest result.2 := by
  obtain ⟨cur, rfl, hstands⟩ := h.stands
  have hpos : q < 2 ^ 31 := lt_of_le_of_lt (le_trans (Nat.le_add_right q 4) hhead.within) hsmall
  let r₁ : FFSReader := r.withDisk ⟨bytes, q⟩
  have hdisk : r₁.file.disk = ⟨bytes, q⟩ := rfl
  have hmoved : r₁.Stands bytes rawFlag { cur with pos := q } :=
    hstands.moved rfl rfl rfl rfl rfl rfl rfl hstands.buffer
  rw [seekSet_eq hstands q] at hread
  -- With little fuel the call does not return.
  rcases fuel with _ | _ | k
  · cases hread
  · rw [readIndex] at hread
    cases hread
  · cases hahead : r.readAhead with
    | true =>
      obtain ⟨htype, hlen⟩ := h.ahead hahead
      obtain ⟨r', pos, htake, hcut'⟩ := @takeIndex_cut _ _ r₁ { cur with pos := q } hsmall rest
        hrest hhead.rest_lt hcut ⟨hmoved, hahead, htype, hlen⟩ bytes.length
      have heq : r₁.readIndex ignoreDefaultValues strToVal (k + 2) = .ok (none, r') :=
        (readIndex_peeked hsmall hdisk hpos hahead htype k).trans htake
      rw [heq] at hread
      cases hread
      exact hcut'.repeats
    | false =>
      have hahead₁ : r₁.readAhead = false := hahead
      have hwithin : q ≤ bytes.length := le_trans (Nat.le_add_right q 4) hhead.within
      cases k with
      | zero =>
        have hpeek : r₁.peek ignoreDefaultValues strToVal 1 = .error .unfinished := by
          rw [peek, if_neg (by rw [hahead₁]; exact Bool.false_ne_true), next]
          rfl
        obtain ⟨-, hback⟩ := seek_back hsmall hdisk hpos
        rw [readIndex] at hread
        dsimp only at hread
        rw [hback, hpeek] at hread
        cases hread
      | succ j =>
        obtain ⟨r₂, hnext, hhead₂⟩ :=
          next_indexHead ignoreDefaultValues strToVal ⟨hmoved, hahead₁, hwithin⟩ hhead j
        obtain ⟨r', pos, htake, hcut'⟩ := takeIndex_cut hsmall hrest hhead.rest_lt
          (show bytes.length < q + 4 + (rest - 4) by omega) hhead₂ bytes.length
        have heq : r₁.readIndex ignoreDefaultValues strToVal (j + 1 + 2) = .ok (none, r') :=
          (readIndex_of_reached hsmall hdisk hpos
            (peek_of_next ignoreDefaultValues strToVal hahead₁ hnext)
            (skipTo_of_type hhead₂.type (j + 1))).trans htake
        rw [heq] at hread
        cases hread
        exact hcut'.repeats

/-- A scan that comes to a block that is cut off never ends. -/
theorem scanBlocks_repeats (hsmall : SmallFile bytes) {q rest : Nat}
    (hhead : HeadAt bytes q 0x4 rest) (hrest : 4 < rest)
    (hcut : bytes.length < q + (rest - 4)) {indexes : List FFSIndexItem} {tail : FFSIndexItem}
    (htail : indexes.getLast? = some tail) (hlink : tail.nextIndexOffset = q)
    (hformats : tail.elements = []) (fuel : Nat) {r : FFSReader}
    (h : Repeats bytes rawFlag indexes rest r) {fpos : Int} (hfpos : fpos ≠ bytes.length)
    (result : Bool × FFSReader) :
    scanBlocks ignoreDefaultValues strToVal fuel fpos bytes.length r ≠ .ok result := by
  induction fuel generalizing r fpos with
  | zero => nofun
  | succ fuel ih =>
    have hlast : r.indexTail = some tail := by
      obtain ⟨cur, rfl, hstands⟩ := h.stands
      rw [indexTail, hstands.indexes, htail]
    have hq : (q : Int) ≠ bytes.length := by
      have hwithin := hhead.within
      omega
    have hthere : (r.seekSet q).1 = true := by
      have hwithin := hhead.within
      exact seekSet_within hsmall (by omega)
    rw [scanBlocks, if_neg hfpos]
    cases fuel with
    | zero => nofun
    | succ k =>
      have hread : r.readFormats ignoreDefaultValues strToVal (k + 1) 0 = .ok (true, r) := by
        rw [readFormats, hlast]
        dsimp only
        rw [hformats]
        rfl
      intro hscan
      rw [bind_eq_of_eq_ok hread rfl] at hscan
      dsimp only at hscan
      rw [if_neg (by decide), hlast] at hscan
      dsimp only at hscan
      rw [hlink, if_neg hq, if_pos hthere] at hscan
      cases hindex : (r.seekSet q).2.readIndex ignoreDefaultValues strToVal (k + 1) with
      | error stop =>
        rw [hindex] at hscan
        cases hscan
      | ok found =>
        rw [hindex] at hscan
        exact ih (readIndex_repeats hsmall hhead hrest hcut h hindex) hq hscan

/-- Opening a file for append does not return when its first block links to one that is cut
off. -/
theorem readAllIndexAndFormats_repeats {context : FFSContext} (hproper : ProperContext context)
    {body : List UInt8} (hsmall : SmallFile (beBytes 4 MAGIC_NUMBER ++ body))
    {found : FFSIndexItem} {q rest : Nat}
    (hfound : IndexFrom ignoreDefaultValues strToVal (beBytes 4 MAGIC_NUMBER ++ body) rawFlag
      ⟨context, [], 4, .simple⟩ found mid)
    (hformats : found.elements = []) (hlink : found.nextIndexOffset = q)
    (hhead : HeadAt (beBytes 4 MAGIC_NUMBER ++ body) q 0x4 rest) (hrest : 4 < rest)
    (hcut : (beBytes 4 MAGIC_NUMBER ++ body).length < q + (rest - 4)) {fuel : Nat}
    (hfuel : 2 * (beBytes 4 MAGIC_NUMBER ++ body).length + 11 ≤ fuel) (r' : FFSReader) :
    (opened rawFlag context body).readAllIndexAndFormats ignoreDefaultValues strToVal fuel ≠
      .ok r' := by
  intro hopen
  have hbetween := between_opened hproper rawFlag body
  have hfour : 4 < 2 ^ 31 := by decide
  obtain ⟨hend, hback⟩ := seek_back hsmall hbetween.stands.disk hfour
  obtain ⟨r₁, hread, hbetween₁⟩ := readIndex_link hsmall hbetween hfound hfuel
  have hindexes : mid.indexes = [found] := hfound.adds_index
  have hsome : r₁.indexes ≠ [] := by
    rw [hbetween₁.stands.indexes, hindexes]
    exact List.cons_ne_nil _ _
  rw [readAllIndexAndFormats, hback, hend,
    bind_eq_of_eq_ok (firstIndex_of_none rfl hread) (if_neg hsome), readBlocks] at hopen
  let r₂ : FFSReader := { r₁ with file := { r₁.file with fileOrg := .indexed } }
  have hstands := hbetween₁.stands
  have hrepeats : Repeats (beBytes 4 MAGIC_NUMBER ++ body) rawFlag mid.indexes rest r₂ :=
    { stands := ⟨{ mid with org := .indexed }, rfl, hstands.status, hstands.raw, hstands.disk, rfl,
        hstands.context, hstands.indexes, hstands.buffer, hstands.proper, hstands.resumed⟩
      ahead := fun hahead => absurd (hbetween₁.ahead.symm.trans hahead) Bool.false_ne_true }
  have hlength : (1 : Int) ≠ (beBytes 4 MAGIC_NUMBER ++ body).length := by
    rw [List.length_append, length_beBytes]
    omega
  have hnever := @scanBlocks_repeats ignoreDefaultValues strToVal _ rawFlag hsmall q rest hhead
    hrest hcut mid.indexes found (by rw [hindexes]; rfl) hlink hformats fuel r₂ hrepeats 1 hlength
  cases hscan : scanBlocks ignoreDefaultValues strToVal fuel 1
      (beBytes 4 MAGIC_NUMBER ++ body).length r₂ with
  | error stop =>
    rw [hscan] at hopen
    cases hopen
  | ok result => exact hnever result hscan

end FFSReader

end FFS
