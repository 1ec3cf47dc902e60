import FFS.Encode.Beside
import FFS.Encode.VectorEncode

/-!
# Messages read back

What `FFSencode` has placed of a value reads as that value.  The walk changes the pointers of a
record that it copied before and adds blocks behind it, and a memory that has both, the record at
one place and the blocks at another, has the value again.
-/

namespace FFS

open Machine

/-- A run of the encoder from `s` to `s'`, and a reading of what it has left in the spans and
behind.  The bytes from `d` on lie at `x`, and those behind at `strings`. -/
def ReadsBack {β : Type} (header d : Nat) (spans : List (Nat × Nat)) (s s' : EncodeState)
    (seen seen' : List Encoded) (reading : Links → Mem → Nat → Reading → Option (β × Reading))
    (b : β) : Prop :=
  s'.outputLen < 2 ^ 64 → ∀ (m : Mem) (x strings start : Nat), start + header ≤ s.outputLen →
    (∀ span ∈ spans, ∀ k < span.2, m (x + (span.1 + k - d)) = s'.buf.tmpBuffer (span.1 + k)) →
    (∀ i, s.outputLen ≤ i → i < s'.outputLen →
      m (strings + (i - header - start)) = s'.buf.tmpBuffer i) →
    reading (messageLinks strings start) m x (messageReading header s seen) =
      some (b, messageReading header s' seen')

/-- The encoder comes to an end, has come to the same targets as a reading of the value, and what
it leaves reads as the same. -/
def Encodes {β : Type} (root : Option Nat) (header d : Nat) (touched spans : List (Nat × Nat))
    (s : EncodeState) (seen : List Encoded) (result : Option EncodeState)
    (reading : Links → Mem → Nat → Reading → Option (β × Reading)) (b : β) (r' : Reading) : Prop :=
  ∃ s' seen', result = some s' ∧ Beside root header s' seen' ∧ r' = nativeReading seen' ∧
    Keeps touched s s' ∧ ReadsBack header d spans s s' seen seen' reading b

variable {mem : Mem} {formats : List FMFormatBody} {f : FMFormatBody} {root : Option Nat}
  {header d : Nat} {s s' : EncodeState} {seen : List Encoded}

/-- The parts of a record or of an array, one after the other. -/
theorem encodes_foldlM {α : Type} {as : List α} (offset size touch : α → Nat)
    {native : α → Reading → Option (Value × Reading)}
    {step : EncodeState → α → Option EncodeState}
    {reading : α → Links → Mem → Nat → Reading → Option (Value × Reading)}
    (htouch : ∀ a ∈ as, touch a ≤ size a)
    (hapart : as.Pairwise fun a b => Apart (offset a, size a) (offset b, size b))
    (hinside : ∀ a ∈ as, d + offset a + size a ≤ s.outputLen)
    (hstep : ∀ done a rest, as = done ++ a :: rest → ∀ s₁ seen₁ b r₁,
      Beside root header s₁ seen₁ → Keeps (done.map fun a => (d + offset a, touch a)) s s₁ →
      native a (nativeReading seen₁) = some (b, r₁) →
      Encodes root header (d + offset a) [(d + offset a, touch a)] [(d + offset a, size a)] s₁ seen₁
        (step s₁ a) (reading a) b r₁)
    (h : Beside root header s seen) {bs : List Value} {r' : Reading}
    (hread : threaded native as (nativeReading seen) = some (bs, r')) :
    Encodes root header d (as.map fun a => (d + offset a, touch a))
      (as.map fun a => (d + offset a, size a)) s seen (as.foldlM step s)
      (fun links m x => threaded (fun a => reading a links m (x + offset a)) as) bs r' := by
  induction as generalizing s seen bs with
  | nil =>
    cases hread
    exact ⟨s, seen, rfl, h, rfl, Keeps.refl s _, fun _ _ _ _ _ _ _ _ => rfl⟩
  | cons a as ih =>
    obtain ⟨b, r₁, bs, hb, hbs, rfl⟩ := threaded_cons_inv hread
    obtain ⟨s₁, seen₁, hs₁, hbeside, rfl, hkeeps, hback⟩ :=
      hstep [] a as rfl s seen b r₁ h (Keeps.refl s _) hb
    obtain ⟨hapart₁, hapart⟩ := List.pairwise_cons.mp hapart
    have hinside₁ := hinside a List.mem_cons_self
    obtain ⟨s', seen', hs', hbeside', hr', hkeeps', hback'⟩ := ih
      (fun a ha => htouch a (List.mem_cons_of_mem _ ha)) hapart
      (fun a ha => Nat.le_trans (hinside a (List.mem_cons_of_mem _ ha)) hkeeps.outputLen)
      (fun done c rest has s₂ seen₂ b₂ r₂ hbeside₂ hkeeps₂ hread₂ =>
        hstep (a :: done) c rest (by rw [has]; rfl) s₂ seen₂ b₂ r₂ hbeside₂
          (hkeeps.append hkeeps₂) hread₂) hbeside hbs
    refine ⟨s', seen', ?_, hbeside', hr', hkeeps.append hkeeps', ?_⟩
    · rw [List.foldlM_cons, hs₁]
      exact hs'
    intro hlen m x strings start hstart hspans hblocks
    -- The rest of the run leaves the first part and the blocks behind it.
    have hfirst : ∀ k < size a, s'.buf.tmpBuffer (d + offset a + k) =
        s₁.buf.tmpBuffer (d + offset a + k) := by
      intro k hk
      refine hkeeps'.bytes (Nat.lt_of_lt_of_le (by omega) hkeeps.outputLen) fun span hspan => ?_
      obtain ⟨c, hc, rfl⟩ := List.mem_map.mp hspan
      have hbeside := hapart₁ c hc
      have hle := htouch c (List.mem_cons_of_mem _ hc)
      simp only [Apart] at hbeside ⊢
      omega
    have hbehind : ∀ i, s.outputLen ≤ i → i < s₁.outputLen →
        s'.buf.tmpBuffer i = s₁.buf.tmpBuffer i := by
      intro i hi hi'
      refine hkeeps'.bytes hi' fun span hspan => .inr ?_
      obtain ⟨c, hc, rfl⟩ := List.mem_map.mp hspan
      have hin := hinside c (List.mem_cons_of_mem _ hc)
      have hle := htouch c (List.mem_cons_of_mem _ hc)
      simp only
      omega
    have hhead := hback (Nat.lt_of_le_of_lt hkeeps'.outputLen hlen) m (x + offset a) strings start
      hstart ?_ ?_
    · refine threaded_cons_eq hhead (hback' hlen m x strings start ?_ ?_ ?_)
      · exact Nat.le_trans hstart hkeeps.outputLen
      · exact fun span hspan => hspans span (List.mem_cons_of_mem _ hspan)
      · exact fun i hi hi' => hblocks i (Nat.le_trans hkeeps.outputLen hi) hi'
    · intro span hspan k hk
      obtain rfl := List.mem_singleton.mp hspan
      have hbyte := hspans _ List.mem_cons_self k hk
      simp only at hk hbyte ⊢
      rw [← hfirst k hk, ← hbyte]
      congr 1
      omega
    · intro i hi hi'
      rw [← hbehind i hi hi']
      exact hblocks i hi (Nat.lt_of_lt_of_le hi' hkeeps'.outputLen)

/-! ## Chains -/

/-- Walks of the same chain. -/
def AllEncode (mem : Mem) (formats : List FMFormatBody) (root : Option Nat) (header fuel : Nat) :
    Prop :=
  ∀ {f : FMFormatBody} {s : EncodeState} {seen : List Encoded} {chain : List FMTypeDesc}
    {n d addr p parent : Nat} {v : Value} {r' : Reading},
    f ∈ formats → Beside root header s seen → Copied mem formats f s chain n d addr p parent →
    fieldIsFlat formats f chain = some false →
    readValue formats (nativeLinks root) mem fuel f (countAt f mem parent) chain addr
      (nativeReading seen) = some (v, r') →
    Encodes root header d [(d, n)] [(d, n)] s seen (handleSubfield formats mem fuel f s chain d p)
      (fun links m x => readValue formats links m fuel f (countAt f mem parent) chain x) v r'

variable {fuel n addr p parent : Nat} {v : Value} {r' : Reading} {m : Mem}

theorem bytes_of_span {tmp : Mem} {x : Nat} (h : ∀ span ∈ [(d, n)], ∀ k < span.2,
    m (x + (span.1 + k - d)) = tmp (span.1 + k)) : ∀ k < n, m (x + k) = tmp (d + k) := by
  intro k hk
  have hbyte := h (d, n) List.mem_cons_self k hk
  rwa [Nat.add_sub_cancel_left] at hbyte

/-- A chain that needs no change reads as it did, in its copy. -/
theorem encodes_flat (hflat : ReadsFlat formats fuel) {chain : List FMTypeDesc}
    (hchain : fieldIsFlat formats f chain = some true) (h : Beside root header s seen)
    (touched : List (Nat × Nat)) {c : DimenCounts}
    (hsize : sizeOfChain formats f c chain = some n)
    (hbytes : ∀ k < n, s.buf.tmpBuffer (d + k) = mem (addr + k))
    (hread : readValue formats (nativeLinks root) mem fuel f c chain addr (nativeReading seen) =
      some (v, r')) :
    Encodes root header d touched [(d, n)] s seen (some s)
      (fun links m x => readValue formats links m fuel f c chain x) v r' := by
  have hsame : SameCounts c c chain := sameCounts_refl c chain
  refine ⟨s, seen, rfl, h, ?_, Keeps.refl s touched, ?_⟩
  · exact (@hflat _ _ _ (nativeLinks root) _ mem _ _ _ addr _ _ (nativeReading seen) _ _ hread
      hchain hsize hsame fun _ _ => rfl).1
  · intro _ m x strings start _ hspans _
    refine (hflat hread hchain hsize hsame fun k hk => ?_).2
    rw [bytes_of_span hspans k hk, hbytes k hk]

theorem pointerWord_of_bytes {x : Nat} (h : ∀ k < f.pointerSize, m (x + k) = mem (addr + k)) :
    pointerWord f m x = pointerWord f mem addr := by
  rw [pointerWord, pointerWord, read_eq_of_bytes h]

/-- The word that the encoder stores for a pointer. -/
theorem pointerWord_of_put (hhost : OnHost f) {x value : Nat} (hvalue : value < 2 ^ 64)
    (h : ∀ k < f.pointerSize, m (x + k) =
      (s.quickPutUlong d f.pointerSize value).buf.tmpBuffer (d + k)) :
    pointerWord f m x = value := by
  obtain ⟨horder, hsize⟩ := hhost
  have hread : (s.quickPutUlong d f.pointerSize value).buf.tmpBuffer.read d f.pointerSize =
      leBytes 8 value := by
    rw [hsize]
    exact Mem.read_write_of_length (length_leBytes 8 value)
  rw [pointerWord, read_eq_of_bytes h, hread, horder]
  show leValue (leBytes 8 value) = value
  rw [leValue_leBytes]
  exact Nat.mod_eq_of_lt hvalue

theorem quickGetUlong_eq_word (hhost : OnHost f) (m : Mem) (addr : Nat) :
    quickGetUlong m addr f.pointerSize = pointerWord f m addr := by
  rw [pointerWord, hhost.1, hhost.2]
  rfl

/-! ## Pointers -/

/-- A pointer of the application that is followed. -/
theorem nativeLinks_locate {next alignment word place : Nat} {recursive : Bool}
    (h : (nativeLinks root).locate next recursive alignment word = some place) :
    place = word ∧ (recursive = true → root ≠ some word) := by
  simp only [nativeLinks] at h
  split at h
  · cases h
  · next hnot =>
    cases h
    refine ⟨rfl, fun hrecursive hroot => hnot ?_⟩
    simp [hrecursive, hroot]

/-- The state of the encoder and the targets that it has come to behind a pointer. -/
def Beside.Follows (root : Option Nat) (header : Nat) (s s₁ : EncodeState) (seen : List Encoded)
    (recursive : Bool) (word offset : Nat) (kind : Kind) : Prop :=
  let seen₁ := if recursive then seen ++ [⟨word, offset, kind⟩] else seen
  Beside root header s₁ seen₁ ∧
    (nativeReading seen).follow (nativeLinks root) recursive word kind = nativeReading seen₁ ∧
    ∀ strings start, s₁.outputLen - header = offset + kind.size →
      (messageReading header s seen).follow (messageLinks strings start) recursive offset kind =
        messageReading header s₁ seen₁

theorem Beside.follows {t : EncodeState} (h : Beside root header s seen)
    (ht : Beside root header t seen) {recursive : Bool} {word offset : Nat} {kind : Kind}
    (hnew : recursive = true → (nativeReading seen).find word = none)
    (hroot : recursive = true → root ≠ some word) (hoffset : s.outputLen ≤ offset + header)
    (hbehind : offset + header < t.outputLen) :
    Beside.Follows root header s (if recursive then t.addToAddrList word offset else t) seen
      recursive word offset kind := by
  have haligned := h.aligned.2
  cases recursive with
  | false =>
    refine ⟨ht, rfl, fun strings start hnext => ?_⟩
    exact congrArg (Reading.mk · _) hnext.symm
  | true =>
    refine ⟨?_, ?_, fun strings start hnext => ?_⟩
    · refine @Beside.remember _ _ _ _ ht ⟨word, offset, kind⟩ ?_ (hroot rfl) (fun e he => ?_)
        (by simp only; omega) hbehind
      · have hnot := Reading.find_none (hnew rfl)
        simpa [nativeReading] using hnot
      · have := (h.behind e he).2
        simp only
        omega
    · simp [Reading.follow, nativeReading, nativeLinks]
    · have hlen : (t.addToAddrList word offset).outputLen - header = offset + kind.size := hnext
      simp [Reading.follow, messageReading, messageLinks, hlen]

/-- A pointer to a target that was placed before. -/
theorem again_encodes {desc : FMTypeDesc} {next : List FMTypeDesc} (hdesc : desc.type = .pointer)
    (hhost : OnHost f) (h : Beside root header s seen) {c : DimenCounts} {size number word : Nat}
    (hsize : sizeOfChain formats f c next = some size) (hrecursive : f.recursive = true)
    (hfind : (nativeReading seen).find word = some (number, Kind.of f next size)) :
    ∃ offset, s.searchAddrList word = some offset ∧
      Encodes root header d [(d, f.pointerSize)] [(d, f.pointerSize)] s seen
        (some (s.quickPutUlong d f.pointerSize offset))
        (fun links m x => readValue formats links m (fuel + 1) f c (desc :: next) x)
        (.again number) (nativeReading seen) := by
  have hget := Reading.find_spec hfind
  simp only [nativeReading, List.getElem?_map] at hget
  obtain ⟨e, he, heq⟩ := Option.map_eq_some_iff.mp hget
  obtain ⟨rfl, hkind⟩ := Prod.mk.inj heq
  have hmem := List.mem_of_getElem? he
  obtain ⟨hne, hlt⟩ := h.behind e hmem
  refine ⟨e.offset, h.search hmem, _, seen, rfl, h.put d _ _, rfl, keeps_quickPutUlong s d _ _,
    fun hlen m x strings start _ hspans _ => ?_⟩
  have hlen : s.outputLen < 2 ^ 64 := hlen
  have hword := pointerWord_of_put hhost (by omega) (bytes_of_span hspans)
  refine (readValue_pointer hdesc).mpr ?_
  rw [hword]
  refine .again hne hsize hrecursive (Reading.find_of_getElem ?_ ?_)
  · rw [messageReading, List.map_map]
    exact h.offsets
  · simp only [messageReading, List.getElem?_map, he, Option.map_some, hkind]

/-- A pointer to nothing, which becomes a null pointer. -/
theorem null_encodes {desc : FMTypeDesc} {next : List FMTypeDesc} (hdesc : desc.type = .pointer)
    (hhost : OnHost f) (h : Beside root header s seen) (c : DimenCounts) :
    Encodes root header d [(d, f.pointerSize)] [(d, f.pointerSize)] s seen
      (some (s.quickPutUlong d f.pointerSize 0))
      (fun links m x => readValue formats links m (fuel + 1) f c (desc :: next) x)
      .null (nativeReading seen) := by
  refine ⟨_, seen, rfl, h.put d _ _, rfl, keeps_quickPutUlong s d _ _,
    fun _ m x strings start _ hspans _ => ?_⟩
  have hword := pointerWord_of_put hhost (by decide) (bytes_of_span hspans)
  refine (readValue_pointer hdesc).mpr ?_
  rw [hword]
  exact .null rfl

/-- A target is placed and walked if it has pointers.  The pointer to it becomes its offset. -/
theorem target_encodes {desc : FMTypeDesc} {next : List FMTypeDesc} (hdesc : desc.type = .pointer)
    (hhost : OnHost f) (h : Beside root header s seen) {c : DimenCounts} {size word : Nat}
    (hsize : sizeOfChain formats f c next = some size) (hpos : size ≠ 0)
    (hinside : d + f.pointerSize ≤ s.outputLen) {block : Block}
    (halign : block.alignment = 8) (hlength : block.length = size) {r : EncodeState × Nat × Nat}
    (hr : s.placeBlock mem block word = r) {s₁ : EncodeState}
    (hfollows : Beside.Follows root header s s₁ seen f.recursive word (r.2.1 - header)
      (Kind.of f next size))
    (hs₁ : s₁.outputLen = r.1.outputLen)
    (hbytes : s₁.buf.tmpBuffer =
      (r.1.quickPutUlong d f.pointerSize (r.2.1 - header)).buf.tmpBuffer)
    {result : Option EncodeState} {t : Reading}
    (htarget : ∀ seen₁, Beside root header s₁ seen₁ →
      (nativeReading seen).follow (nativeLinks root) f.recursive word (Kind.of f next size) =
        nativeReading seen₁ →
      Encodes root header r.2.1 [(r.2.1, size)] [(r.2.1, size)] s₁ seen₁ result
        (fun links m x => readValue formats links m fuel f c next x) v t) :
    Encodes root header d [(d, f.pointerSize)] [(d, f.pointerSize)] s seen result
      (fun links m x => readValue formats links m (fuel + 1) f c (desc :: next) x)
      (.pointer v) t := by
  obtain ⟨-, hkeeps, -, hoffset, hend, -⟩ := @Beside.place mem _ _ _ _ h block word
  rw [hr] at hkeeps hoffset hend
  rw [halign] at hoffset
  rw [hlength] at hend
  have haligned := h.aligned.2
  obtain ⟨hbeside, hnative, hmessage⟩ := hfollows
  obtain ⟨s', seen', rfl, hbeside', hread, hkeeps', hback⟩ := htarget _ hbeside hnative
  have hput : Keeps [(d, f.pointerSize)] s s₁ := by
    have hall := hkeeps.append (keeps_quickPutUlong r.1 d f.pointerSize (r.2.1 - header))
    exact ⟨hs₁ ▸ hkeeps.outputLen, fun hi hout => by rw [hbytes]; exact hall.bytes hi hout⟩
  refine ⟨s', seen', rfl, hbeside', hread, ?_,
    fun hlen m x strings start hstart hspans hblocks => ?_⟩
  · refine (hput.append hkeeps').mono fun span hspan => ?_
    rcases List.mem_append.mp hspan with hspan | hspan
    · exact .inr ⟨span, hspan, Nat.le_refl _, Nat.le_refl _⟩
    · rw [List.mem_singleton.mp hspan]
      exact .inl (by simp only; omega)
  · have hle := hkeeps'.outputLen
    have hplace : (messageLinks strings start).locate (s.outputLen - header) f.recursive 8
        (r.2.1 - header) = some (strings + (r.2.1 - header - start)) := by
      have hpad := alignPad_sub h.aligned.1 (Nat.le_of_lt haligned)
      simp only [messageLinks, hpad]
      exact if_pos (by omega)
    -- The walk of the target leaves the pointer to it.
    have hpointer : ∀ k < f.pointerSize, m (x + k) =
        (r.1.quickPutUlong d f.pointerSize (r.2.1 - header)).buf.tmpBuffer (d + k) := by
      intro k hk
      rw [bytes_of_span hspans k hk, ← hbytes]
      refine hkeeps'.bytes (by omega) fun span hspan => .inl ?_
      rw [List.mem_singleton.mp hspan]
      simp only
      omega
    have hoff := pointerWord_of_put hhost (by omega) hpointer
    refine (readValue_pointer hdesc).mpr ?_
    rw [hoff]
    refine .target (by omega) hsize hpos (fun hrecursive => Reading.find_eq_none ?_) hplace ?_
    · intro hmem
      simp only [messageReading, List.map_map, List.mem_map] at hmem
      obtain ⟨e, he, heq⟩ := hmem
      have hlt := (h.behind e he).2
      simp only [Function.comp_apply] at heq
      omega
    · rw [hmessage strings start (by simp only [Kind.of]; omega)]
      refine hback hlen m _ strings start (by omega) ?_ (fun i hi => hblocks i (by omega))
      intro span hspan k hk
      obtain rfl := List.mem_singleton.mp hspan
      simp only at hk ⊢
      rw [← hblocks (r.2.1 + k) (by omega) (by omega)]
      congr 1
      omega

theorem pointer_encodes {desc : FMTypeDesc} {next : List FMTypeDesc} (hdesc : desc.type = .pointer)
    (hhost : OnHost f) (hflats : ReadsFlat formats fuel)
    (ih : AllEncode mem formats root header fuel)
    (hf : f ∈ formats) (h : Beside root header s seen)
    (hcopied : Copied mem formats f s (desc :: next) n d addr p parent)
    (hread : readValue formats (nativeLinks root) mem (fuel + 1) f (countAt f mem parent)
      (desc :: next) addr (nativeReading seen) = some (v, r')) :
    Encodes root header d [(d, n)] [(d, n)] s seen
      (handleSubfield formats mem (fuel + 1) f s (desc :: next) d p)
      (fun links m x => readValue formats links m (fuel + 1) f (countAt f mem parent)
        (desc :: next) x) v r' := by
  have hn : n = f.pointerSize := by
    simpa [determineSize, hdesc] using hcopied.size.symm
  subst hn
  have hsizes := @determineSize_congr formats _ _ _ _ _ _ hcopied.counts.tail
  have hbytes : ∀ k < f.pointerSize, s.buf.tmpBuffer (d + k) = mem (addr + k) :=
    fun k hk => hcopied.bytes hk
  rw [handleSubfield]
  simp only [hdesc, hcopied.quickGetUlong, quickGetUlong_eq_word hhost, hsizes, h.noLeafCopy,
    Bool.false_and, Bool.false_eq_true, if_false]
  have hreads := (readValue_pointer hdesc).mp hread
  obtain ⟨word, hword⟩ : ∃ word, pointerWord f mem addr = word := ⟨_, rfl⟩
  rw [hword] at hreads ⊢
  have hsearch : (f.recursive = true → (nativeReading seen).find word = none) →
      (f.recursive = true → root ≠ some word) →
      (if f.recursive = true then s.searchAddrList word else none) = none := by
    intro hnew hroot
    split
    · next hrecursive =>
      have hnot := Reading.find_none (hnew hrecursive)
      exact h.search_none (by simpa [nativeReading] using hnot) (hroot hrecursive)
    · rfl
  cases hreads with
  | null hzero =>
    rw [if_pos hzero]
    refine ⟨s, seen, rfl, h, rfl, Keeps.refl s _, fun _ m x strings start _ hspans _ => ?_⟩
    have hsame := pointerWord_of_bytes fun k hk =>
      (bytes_of_span hspans k hk).trans (hbytes k hk)
    exact (readValue_pointer hdesc).mpr (by rw [hsame, hword]; exact .null hzero)
  | again hne hsize hrecursive hfind =>
    obtain ⟨offset, hoffset, hencodes⟩ :=
      @again_encodes formats f root header d s seen fuel _ _ hdesc hhost h _ _ _ _ hsize hrecursive
        hfind
    rw [if_neg hne, if_pos hrecursive, hoffset]
    exact hencodes
  | empty hne hsize hnew hplace _ =>
    obtain ⟨-, hroot⟩ := nativeLinks_locate hplace
    rw [if_neg hne, hsearch hnew hroot, determineSize_of_sized hhost hsize]
    exact null_encodes hdesc hhost h _
  | @target size place w t hne hsize hpos hnew hplace htarget =>
    obtain ⟨rfl, hroot⟩ := nativeLinks_locate hplace
    have hdetermined := determineSize_of_sized hhost hsize
    obtain ⟨flat, hflat⟩ := fieldIsFlat_of_sized hsize
    rw [if_neg hne, hsearch hnew hroot, hdetermined, hflat]
    simp only [Option.bind_eq_bind, Option.bind_some, if_neg hpos]
    obtain ⟨hbeside, hkeeps, hloc, hoffset, hend, -⟩ :=
      @Beside.place mem _ _ _ _ h ⟨flat, 8, size⟩ place
    have hvisited : Visited s ⟨s.addrList.map Prod.fst, s.blocks⟩ :=
      ⟨h.copyAll, h.noLeafCopy, h.inUse, h.tmp, rfl, rfl⟩
    obtain ⟨-, -, hcopy, -⟩ := hcopied.target hvisited hdetermined place flat
      ((s.placeBlock mem ⟨flat, 8, size⟩ place).2.1 - header)
    rw [hbeside.saved]
    generalize hr : s.placeBlock mem ⟨flat, 8, size⟩ place = r
      at hbeside hkeeps hloc hoffset hend hcopy ⊢
    have hput := hbeside.put d f.pointerSize (r.2.1 - header)
    have haligned := h.aligned.2
    simp only at hend
    have hbehind : r.2.1 - header + header < r.1.outputLen := by omega
    have hfollows := @Beside.follows _ _ _ _ _ h hput f.recursive place (r.2.1 - header)
      (Kind.of f next size) hnew hroot (by omega) hbehind
    have hnext := hcopy.addToAddrList f.recursive place (r.2.1 - header)
    rw [hloc] at hnext
    have hsame : (if f.recursive = true then
        (r.1.quickPutUlong d f.pointerSize (r.2.1 - header)).addToAddrList place (r.2.1 - header)
        else r.1.quickPutUlong d f.pointerSize (r.2.1 - header)).buf.tmpBuffer =
          (r.1.quickPutUlong d f.pointerSize (r.2.1 - header)).buf.tmpBuffer ∧
        (if f.recursive = true then
        (r.1.quickPutUlong d f.pointerSize (r.2.1 - header)).addToAddrList place (r.2.1 - header)
        else r.1.quickPutUlong d f.pointerSize (r.2.1 - header)).outputLen = r.1.outputLen := by
      split <;> exact ⟨rfl, rfl⟩
    generalize (if f.recursive = true then _ else _ : EncodeState) = s₁ at hfollows hnext hsame ⊢
    refine target_encodes hdesc hhost h hsize hpos hcopied.inside rfl rfl hr hfollows hsame.2
      hsame.1 fun seen₁ hbeside₁ hnative => ?_
    rw [hnative] at htarget
    cases flat with
    | true =>
      exact encodes_flat hflats hflat hbeside₁ _ hsize (fun k hk => hnext.bytes hk) htarget
    | false =>
      rw [hloc]
      exact ih hf hbeside₁ hnext hflat htarget

/-! ## Strings -/

theorem string_encodes {desc : FMTypeDesc} {next : List FMTypeDesc} (hdesc : desc.type = .string)
    (hhost : OnHost f) (h : Beside root header s seen)
    (hcopied : Copied mem formats f s (desc :: next) n d addr p parent)
    (hread : readValue formats (nativeLinks root) mem (fuel + 1) f (countAt f mem parent)
      (desc :: next) addr (nativeReading seen) = some (v, r')) :
    Encodes root header d [(d, n)] [(d, n)] s seen
      (handleSubfield formats mem (fuel + 1) f s (desc :: next) d p)
      (fun links m x => readValue formats links m (fuel + 1) f (countAt f mem parent)
        (desc :: next) x) v r' := by
  have hn : n = f.pointerSize := by
    simpa [determineSize, hdesc] using hcopied.size.symm
  subst hn
  have hbytes : ∀ k < f.pointerSize, s.buf.tmpBuffer (d + k) = mem (addr + k) :=
    fun k hk => hcopied.bytes hk
  rw [handleSubfield]
  simp only [hdesc, hcopied.quickGetUlong, quickGetUlong_eq_word hhost]
  have hreads := (readValue_string hdesc).mp hread
  obtain ⟨word, hword⟩ : ∃ word, pointerWord f mem addr = word := ⟨_, rfl⟩
  rw [hword] at hreads ⊢
  cases hreads with
  | null hzero =>
    rw [if_pos hzero]
    refine ⟨s, seen, rfl, h, rfl, Keeps.refl s _, fun _ m x strings start _ hspans _ => ?_⟩
    have hsame := pointerWord_of_bytes fun k hk =>
      (bytes_of_span hspans k hk).trans (hbytes k hk)
    exact (readValue_string hdesc).mpr (by rw [hsame, hword]; exact .null hzero)
  | @text place length hne hplace hlength =>
    obtain ⟨rfl, -⟩ := nativeLinks_locate hplace
    rw [if_neg hne, hlength]
    simp only [Option.bind_eq_bind, Option.bind_some, Option.pure_def]
    obtain ⟨hbeside, hkeeps, -, hoffset, hend, htext⟩ :=
      @Beside.place mem _ _ _ _ h ⟨true, 1, length + 1⟩ place
    rw [hbeside.saved]
    generalize s.placeBlock mem ⟨true, 1, length + 1⟩ place = r
      at hbeside hkeeps hoffset hend htext ⊢
    have haligned := h.aligned.2
    have hinside := hcopied.inside
    simp only at hend htext hoffset
    have hput := keeps_quickPutUlong r.1 d f.pointerSize (r.2.1 - header)
    refine ⟨_, seen, rfl, hbeside.put d _ _, rfl, hkeeps.append hput,
      fun hlen m x strings start hstart hspans hblocks => ?_⟩
    have hlen : r.1.outputLen < 2 ^ 64 := hlen
    have hfits : r.2.1 - header < 2 ^ 64 := by omega
    have hoff := pointerWord_of_put hhost hfits (bytes_of_span hspans)
    -- The text lies behind what was there before, and the pointer to it does not reach it.
    have hcopy : ∀ k < length + 1,
        m (strings + (r.2.1 - header - start) + k) = mem (place + k) := by
      intro k hk
      have hblock := hblocks (r.2.1 + k) (by omega) (by show _ < r.1.outputLen; omega)
      have hkept : (r.1.quickPutUlong d f.pointerSize (r.2.1 - header)).buf.tmpBuffer (r.2.1 + k) =
          r.1.buf.tmpBuffer (r.2.1 + k) := by
        refine hput.bytes (by omega) fun span hspan => .inr ?_
        rw [List.mem_singleton.mp hspan]
        simp only
        omega
      rw [← htext hk, ← hkept, ← hblock]
      congr 1
      omega
    have hlocate : (messageLinks strings start).locate (s.outputLen - header) false 1
        (r.2.1 - header) = some (strings + (r.2.1 - header - start)) := by
      have hpad := alignPad_sub (Nat.one_dvd header) (Nat.le_of_lt haligned)
      simp only [messageLinks, hpad]
      exact if_pos (by omega)
    have hnext : (messageLinks strings start).after (r.2.1 - header) (length + 1) =
        r.1.outputLen - header := by
      simp only [messageLinks]
      omega
    refine (readValue_string hdesc).mpr ?_
    have htextRead := ReadsString.text (r := messageReading header s seen) (by omega) hlocate
      (stringLength_congr hlength fun k hk => hcopy k (by omega))
    rw [read_eq_of_bytes fun k hk => hcopy k (by omega), hnext] at htextRead
    rw [hoff]
    exact htextRead

/-! ## Arrays -/

/-- What an array reads as. -/
theorem readValue_array {desc : FMTypeDesc} {next : List FMTypeDesc} {links : Links}
    {c : DimenCounts} {r t : Reading} (hdesc : desc.type = .array) :
    readValue formats links m (fuel + 1) f c (desc :: next) addr r = some (v, t) ↔
      ∃ count element size values, elementsOf c (desc :: next) = some (count, element) ∧
        sizeOfChain formats f c element = some size ∧ v = .array values ∧
        threaded (fun i r => readValue formats links m fuel f c element (addr + i * size) r)
          (List.range count) r = some (values, t) := by
  rw [readValue]
  simp only [hdesc, Option.bind_eq_bind, Option.bind_eq_some_iff, Option.pure_def,
    Option.some.injEq]
  constructor
  · rintro ⟨⟨count, element⟩, helements, size, hsize, ⟨values, last⟩, hvalues, heq⟩
    cases heq
    exact ⟨count, element, size, values, helements, hsize, rfl, hvalues⟩
  · rintro ⟨count, element, size, values, helements, hsize, rfl, hvalues⟩
    exact ⟨(count, element), helements, size, hsize, (values, t), hvalues, rfl⟩

/-- Elements of one size lie one beside the other. -/
theorem elements_pairwise (count size : Nat) :
    (List.range count).Pairwise fun i k => Apart (i * size, size) (k * size, size) :=
  List.nodup_range.imp fun hne => elements_apart hne

/-- An element of a copied array, behind the work on those before it. -/
theorem Copied.element {chain element : List FMTypeDesc} {count size i : Nat} {done rest : List Nat}
    (hcopied : Copied mem formats f s chain n d addr p parent)
    (hsize : determineSize formats f mem parent element = some size)
    (hsub : controls f element ⊆ controls f chain)
    (hin : ∀ i ∈ List.range count, i * size + size ≤ n)
    (hrange : List.range count = done ++ i :: rest)
    (hkeeps : Keeps (done.map fun i => (d + i * size, size)) s s') :
    Copied mem formats f s' element size (d + i * size) (addr + i * size) p parent := by
  have hi := hin i (by rw [hrange]; exact List.mem_append_right done List.mem_cons_self)
  have hbefore : ∀ k ∈ done, k ≠ i ∧ k * size + size ≤ n := by
    intro k hk
    have hnodup : (done ++ i :: rest).Nodup := hrange ▸ List.nodup_range
    refine ⟨fun heq => (List.nodup_append.mp hnodup).2.2 k hk i List.mem_cons_self heq, hin k ?_⟩
    rw [hrange]
    exact List.mem_append_left _ hk
  have hinside := hcopied.inside
  refine ⟨hsize, Nat.le_trans (by omega) hkeeps.outputLen, fun {k} hk => ?_, ?_,
    fun control hcontrol => ?_⟩
  · rw [hkeeps.bytes (by omega), Nat.add_assoc, hcopied.bytes (by omega), Nat.add_assoc]
    intro span hspan
    obtain ⟨j, hj, rfl⟩ := List.mem_map.mp hspan
    have hapart := @elements_apart j i size (hbefore j hj).1
    simp only
    omega
  · intro control hcontrol
    obtain ⟨hend, hapart⟩ := hcopied.apart control (hsub hcontrol)
    rw [hkeeps.read hend, hcopied.counts control (hsub hcontrol)]
    intro span hspan
    obtain ⟨j, hj, rfl⟩ := List.mem_map.mp hspan
    have hj := (hbefore j hj).2
    simp only
    omega
  · obtain ⟨hend, hapart⟩ := hcopied.apart control (hsub hcontrol)
    exact ⟨Nat.le_trans hend hkeeps.outputLen, by omega⟩

theorem array_encodes {desc : FMTypeDesc} {next : List FMTypeDesc} (hdesc : desc.type = .array)
    (hhost : OnHost f) (ih : AllEncode mem formats root header fuel) (hf : f ∈ formats)
    (h : Beside root header s seen)
    (hcopied : Copied mem formats f s (desc :: next) n d addr p parent)
    (hflat : fieldIsFlat formats f (desc :: next) = some false)
    (hread : readValue formats (nativeLinks root) mem (fuel + 1) f (countAt f mem parent)
      (desc :: next) addr (nativeReading seen) = some (v, r')) :
    Encodes root header d [(d, n)] [(d, n)] s seen
      (handleSubfield formats mem (fuel + 1) f s (desc :: next) d p)
      (fun links m x => readValue formats links m (fuel + 1) f (countAt f mem parent)
        (desc :: next) x) v r' := by
  obtain ⟨count, element, size, values, helements, hsize, rfl, hvalues⟩ :=
    (readValue_array hdesc).mp hread
  obtain ⟨hfill, hsameFlat, -, hsub, -⟩ := @elementsOf_spec formats f _ _ _ _ helements
  have hfilled : count * size = n :=
    Option.some.inj ((determineSize_of_sized hhost (hfill size hsize)).symm.trans hcopied.size)
  have hdetermined := determineSize_of_sized hhost hsize
  have harray := arrayElements_of_elementsOf hhost helements
  have hin : ∀ i ∈ List.range count, i * size + size ≤ n := by
    intro i hi
    calc i * size + size = (i + 1) * size := (Nat.succ_mul i size).symm
      _ ≤ count * size := Nat.mul_le_mul_right size (List.mem_range.mp hi)
      _ = n := hfilled
  have hinside := hcopied.inside
  rw [handleSubfield]
  simp only [hdesc, arrayElements_congr hcopied.counts, harray, Option.bind_eq_bind,
    Option.bind_some, determineSize_element harray s.buf.tmpBuffer mem p parent, hdetermined,
    hsameFlat.trans hflat, Bool.false_eq_true, if_false]
  have hrun := @encodes_foldlM root header d s seen Nat (List.range count) (fun i => i * size)
    (fun _ => size) (fun _ => size) _
    (fun s i => handleSubfield formats mem fuel f s element (d + i * size) p)
    (fun i links m x => readValue formats links m fuel f (countAt f mem parent) element x)
    (fun _ _ => Nat.le_refl size) (elements_pairwise count size)
    (fun i hi => by have := hin i hi; omega)
    (fun done i rest hrange s₁ seen₁ w r₁ hbeside₁ hkeeps₁ hw =>
      ih hf hbeside₁ (hcopied.element hdetermined hsub hin hrange hkeeps₁)
        (hsameFlat.trans hflat) hw)
    h _ _ hvalues
  obtain ⟨s', seen', hs', hbeside, hr', hkeeps, hback⟩ := hrun
  refine ⟨s', seen', hs', hbeside, hr', hkeeps.mono fun span hspan => ?_,
    fun hlen m x strings start hstart hspans hblocks => ?_⟩
  · obtain ⟨i, hi, rfl⟩ := List.mem_map.mp hspan
    have hi := hin i hi
    exact .inr ⟨(d, n), List.mem_cons_self, by simp only; omega⟩
  · refine (readValue_array hdesc).mpr ⟨count, element, size, values, helements, hsize, rfl, ?_⟩
    refine hback hlen m x strings start hstart (fun span hspan k hk => ?_) hblocks
    obtain ⟨i, hi, rfl⟩ := List.mem_map.mp hspan
    have hi := hin i hi
    simp only at hk ⊢
    have hbyte := bytes_of_span hspans (i * size + k) (by omega)
    rw [show d + i * size + k - d = i * size + k by omega, hbyte, Nat.add_assoc]

/-! ## Records -/

/-- The bytes of a field that the walk may change. -/
def touchSize (formats : List FMFormatBody) (f : FMFormatBody) (entry : FMField × FMVarInfo) : Nat :=
  if fieldIsFlat formats f entry.2.typeDesc = some true then 0
  else (pointerSpan formats f entry).2

theorem touchSize_le (formats : List FMFormatBody) (f : FMFormatBody)
    (entry : FMField × FMVarInfo) :
    touchSize formats f entry ≤ (pointerSpan formats f entry).2 := by
  unfold touchSize
  split
  · exact Nat.zero_le _
  · exact Nat.le_refl _

/-- The part of a field that the walk may change, in a record at `d`. -/
def touchSpan (formats : List FMFormatBody) (f : FMFormatBody) (d : Nat)
    (entry : FMField × FMVarInfo) : Nat × Nat :=
  (d + (pointerSpan formats f entry).1, touchSize formats f entry)

/-- No part of a count is changed. -/
theorem Structured.count_untouched (hstruct : Structured formats f)
    {entries : List (FMField × FMVarInfo)} (hentries : entries ⊆ f.fieldList.zip f.varList)
    {entry : FMField × FMVarInfo} (hentry : entry ∈ f.fieldList.zip f.varList) {control : FMField}
    (hcontrol : control ∈ controls f entry.2.typeDesc) :
    ∀ span ∈ entries.map (touchSpan formats f d),
      d + sizeOfInt control.fieldOffset + controlSize control ≤ span.1 ∨
        span.1 + span.2 ≤ d + sizeOfInt control.fieldOffset ∨ span.2 = 0 := by
  intro span hspan
  obtain ⟨other, hother, rfl⟩ := List.mem_map.mp hspan
  obtain ⟨counter, hcounter, rfl, hplace, hflat⟩ := hstruct.counter hentry hcontrol
  by_cases hsame : fieldIsFlat formats f other.2.typeDesc = some true
  · exact .inr (.inr (if_pos hsame))
  · have hne : counter ≠ other := by
      rintro rfl
      exact hsame hflat
    have hapart := hstruct.beside hcounter (hentries hother) hne
    rw [hplace] at hapart
    have hle := touchSize_le formats f other
    simp only [Apart, countSpan, touchSpan] at hapart ⊢
    omega

/-- What the walk has changed of other fields leaves a field as it was. -/
theorem Structured.field_untouched (hstruct : Structured formats f)
    {done rest : List (FMField × FMVarInfo)} {entry : FMField × FMVarInfo}
    (hsplit : f.fieldList.zip f.varList = done ++ entry :: rest) :
    ∀ span ∈ done.map (touchSpan formats f d),
      d + (pointerSpan formats f entry).1 + (pointerSpan formats f entry).2 ≤ span.1 ∨
        span.1 + span.2 ≤ d + (pointerSpan formats f entry).1 := by
  intro span hspan
  obtain ⟨other, hother, rfl⟩ := List.mem_map.mp hspan
  have hpairs := hstruct.apart
  rw [hsplit] at hpairs
  have hapart := (List.pairwise_append.mp hpairs).2.2 other hother entry List.mem_cons_self
  have hle := touchSize_le formats f other
  simp only [Apart, touchSpan] at hapart ⊢
  omega

/-- Bytes that no change touches. -/
theorem Keeps.untouched {spans : List (Nat × Nat)} (hkeeps : Keeps spans s s') {a n : Nat}
    (hin : a + n ≤ s.outputLen)
    (hout : ∀ span ∈ spans, a + n ≤ span.1 ∨ span.1 + span.2 ≤ a ∨ span.2 = 0) :
    ∀ k < n, s'.buf.tmpBuffer (a + k) = s.buf.tmpBuffer (a + k) := by
  intro k hk
  refine hkeeps.bytes (by omega) fun span hspan => ?_
  have hspan := hout span hspan
  omega

/-- A field of a copied record, behind the work on those before it. -/
theorem Copied.field (hstruct : Structured formats f) {done rest : List (FMField × FMVarInfo)}
    {entry : FMField × FMVarInfo} (hsplit : f.fieldList.zip f.varList = done ++ entry :: rest)
    (hflat : fieldIsFlat formats f entry.2.typeDesc = some false)
    (hinside : d + sizeOfInt f.recordLength ≤ s.outputLen)
    (hbytes : ∀ k < sizeOfInt f.recordLength, s.buf.tmpBuffer (d + k) = mem (addr + k))
    (hkeeps : Keeps (done.map (touchSpan formats f d)) s s') :
    Copied mem formats f s' entry.2.typeDesc (pointerSpan formats f entry).2
      (d + (pointerSpan formats f entry).1) (addr + (pointerSpan formats f entry).1) d addr := by
  have hentry : entry ∈ f.fieldList.zip f.varList := by
    rw [hsplit]
    exact List.mem_append_right done List.mem_cons_self
  have hdone : done ⊆ f.fieldList.zip f.varList := by
    rw [hsplit]
    exact List.subset_append_left done _
  have hin := hstruct.inside entry hentry
  unfold InRecord at hin
  refine ⟨determineSize_of_extent (hstruct.extent hentry) mem addr,
    Nat.le_trans (by omega) hkeeps.outputLen, fun {k} hk => ?_, fun control hcontrol => ?_,
    fun control hcontrol => ?_⟩
  · rw [hkeeps.untouched (by omega) (fun span hspan =>
      (hstruct.field_untouched hsplit span hspan).imp_right .inl) k hk, Nat.add_assoc,
      hbytes _ (by omega), Nat.add_assoc]
  · have hcount := hstruct.count_inside hentry hcontrol
    refine read_eq_of_bytes fun k hk => ?_
    rw [hkeeps.untouched (by omega) (hstruct.count_untouched hdone hentry hcontrol) k hk,
      Nat.add_assoc, hbytes _ (by omega), Nat.add_assoc]
  · have hcount := hstruct.count_inside hentry hcontrol
    refine ⟨Nat.le_trans (by omega) hkeeps.outputLen, ?_⟩
    obtain ⟨counter, hcounter, rfl, hplace, hcounterFlat⟩ := hstruct.counter hentry hcontrol
    have hne : counter ≠ entry := by
      rintro rfl
      rw [hflat] at hcounterFlat
      cases hcounterFlat
    have hapart := hstruct.beside hcounter hentry hne
    rw [hplace] at hapart
    simp only [Apart, countSpan] at hapart
    omega

/-- The fields of a record that was encoded are read with its own counts. -/
theorem record_encodes (hstruct : Structured formats f)
    (hinside : d + sizeOfInt f.recordLength ≤ s.outputLen)
    (hbytes : ∀ k < sizeOfInt f.recordLength, s.buf.tmpBuffer (d + k) = mem (addr + k))
    {result : Option EncodeState} {values : List Value}
    (h : Encodes root header d ((f.fieldList.zip f.varList).map (touchSpan formats f d))
      ((f.fieldList.zip f.varList).map fun entry =>
        (d + sizeOfInt entry.1.fieldOffset, (pointerSpan formats f entry).2)) s seen result
      (fun links m x => threaded (fun entry => readValue formats links m fuel f (countAt f mem addr)
        entry.2.typeDesc (x + sizeOfInt entry.1.fieldOffset)) (f.fieldList.zip f.varList))
      values r') :
    Encodes root header d [(d, sizeOfInt f.recordLength)] [(d, sizeOfInt f.recordLength)] s seen
      result (fun links m x => readEntries (readValue formats links m fuel f) f m x)
      (.record values) r' := by
  obtain ⟨s', seen', hs', hbeside, hr', hkeeps, hback⟩ := h
  refine ⟨s', seen', hs', hbeside, hr', hkeeps.mono fun span hspan => ?_,
    fun hlen m x strings start hstart hspans hblocks => ?_⟩
  · obtain ⟨entry, hentry, rfl⟩ := List.mem_map.mp hspan
    have hspan := hstruct.inside entry hentry
    have hle := touchSize_le formats f entry
    simp only [InRecord] at hspan
    exact .inr ⟨_, List.mem_cons_self, by simp only [touchSpan]; omega⟩
  · have hcounts : ∀ entry ∈ f.fieldList.zip f.varList,
        SameCounts (countAt f mem addr) (countAt f m x) entry.2.typeDesc := by
      intro entry hentry
      refine sameCounts_of_controls fun control hcontrol => ?_
      have hcount := hstruct.count_inside hentry hcontrol
      refine read_eq_of_bytes fun k hk => ?_
      have hkept := hkeeps.untouched (by omega)
        (hstruct.count_untouched (List.Subset.refl _) hentry hcontrol) k hk
      have hbyte := bytes_of_span hspans (sizeOfInt control.fieldOffset + k) (by omega)
      rw [Nat.add_assoc, hbyte, ← Nat.add_assoc, hkept, Nat.add_assoc, hbytes _ (by omega),
        Nat.add_assoc]
    have hfields := hback hlen m x strings start hstart (fun span hspan k hk => ?_) hblocks
    · beta_reduce at hfields
      simp only [readEntries]
      rw [threaded_congr fun entry hentry r => readValue_congr (hcounts entry hentry), hfields]
      rfl
    · obtain ⟨entry, hentry, rfl⟩ := List.mem_map.mp hspan
      have hspan := hstruct.inside entry hentry
      simp only [InRecord, pointerSpan] at hspan hk ⊢
      have hbyte := bytes_of_span hspans (sizeOfInt entry.1.fieldOffset + k) (by omega)
      rw [show d + sizeOfInt entry.1.fieldOffset + k - d = sizeOfInt entry.1.fieldOffset + k by
        omega, hbyte, Nat.add_assoc]

/-- One field, behind the work on those before it. -/
theorem field_encodes (hstruct : Structured formats f) (hflats : ReadsFlat formats fuel)
    (ih : AllEncode mem formats root header fuel) (hf : f ∈ formats)
    (hinside : d + sizeOfInt f.recordLength ≤ s.outputLen)
    (hbytes : ∀ k < sizeOfInt f.recordLength, s.buf.tmpBuffer (d + k) = mem (addr + k))
    {done rest : List (FMField × FMVarInfo)} {entry : FMField × FMVarInfo}
    (hsplit : f.fieldList.zip f.varList = done ++ entry :: rest)
    (hkeeps : Keeps (done.map (touchSpan formats f d)) s s') (h : Beside root header s' seen)
    (hread : readValue formats (nativeLinks root) mem fuel f (countAt f mem addr) entry.2.typeDesc
      (addr + sizeOfInt entry.1.fieldOffset) (nativeReading seen) = some (v, r')) :
    Encodes root header (d + sizeOfInt entry.1.fieldOffset)
      [(d + sizeOfInt entry.1.fieldOffset, touchSize formats f entry)]
      [(d + sizeOfInt entry.1.fieldOffset, (pointerSpan formats f entry).2)] s' seen
      (do
        let flat ← fieldIsFlat formats f entry.2.typeDesc
        if flat then return s'
        else
          handleSubfield formats mem fuel f s' entry.2.typeDesc
            (d + sizeOfInt entry.1.fieldOffset) d)
      (fun links m x => readValue formats links m fuel f (countAt f mem addr) entry.2.typeDesc x)
      v r' := by
  have hentry : entry ∈ f.fieldList.zip f.varList := by
    rw [hsplit]
    exact List.mem_append_right done List.mem_cons_self
  have hsize := sizeOfChain_of_extent (hstruct.extent hentry) (countAt f mem addr)
  have hspan := hstruct.inside entry hentry
  obtain ⟨flat, hflat⟩ := fieldIsFlat_of_sized hsize
  simp only [InRecord] at hspan
  simp only [hflat, Option.bind_eq_bind, Option.bind_some]
  cases flat with
  | true =>
    refine encodes_flat hflats hflat h _ hsize (fun k hk => ?_) hread
    have hkept := hkeeps.untouched (by omega) (fun span hspan =>
      (hstruct.field_untouched hsplit span hspan).imp_right .inl) k hk
    rw [show d + sizeOfInt entry.1.fieldOffset = d + (pointerSpan formats f entry).1 from rfl,
      hkept, Nat.add_assoc, hbytes _ (by omega), Nat.add_assoc]
    rfl
  | false =>
    have hcopied := Copied.field hstruct hsplit hflat hinside hbytes hkeeps
    have htouch : touchSize formats f entry = (pointerSpan formats f entry).2 := by
      rw [touchSize, hflat, if_neg (by decide)]
    rw [htouch]
    exact ih hf h hcopied hflat hread

theorem subfields_encodes (hstruct : Structured formats f) (hflats : ReadsFlat formats fuel)
    (ih : AllEncode mem formats root header fuel) (hf : f ∈ formats)
    (h : Beside root header s seen) (hinside : d + sizeOfInt f.recordLength ≤ s.outputLen)
    (hbytes : ∀ k < sizeOfInt f.recordLength, s.buf.tmpBuffer (d + k) = mem (addr + k))
    (hread : readEntries (readValue formats (nativeLinks root) mem fuel f) f mem addr
      (nativeReading seen) = some (v, r')) :
    Encodes root header d [(d, sizeOfInt f.recordLength)] [(d, sizeOfInt f.recordLength)] s seen
      (handleSubfields formats (handleSubfield formats mem fuel f) f s d)
      (fun links m x => readEntries (readValue formats links m fuel f) f m x) v r' := by
  unfold handleSubfields
  cases hvariant : f.variant with
  | false =>
    refine ⟨s, seen, rfl, h, ?_, Keeps.refl s _, fun _ m x strings start _ hspans _ => ?_⟩
    · exact (@readEntries_flat _ _ _ (nativeLinks root) _ mem _ hstruct hvariant hflats _ addr _
        (nativeReading seen) _ _ (fun _ _ => rfl) hread).1
    · refine (readEntries_flat hstruct hvariant hflats (fun k hk => ?_) hread).2
      rw [bytes_of_span hspans k hk, hbytes k hk]
  | true =>
    simp only [Bool.not_true, Bool.false_eq_true, if_false]
    have hread' := hread
    simp only [readEntries, Option.bind_eq_bind, Option.bind_eq_some_iff, Option.pure_def,
      Option.some.injEq] at hread'
    obtain ⟨⟨values, last⟩, hvalues, heq⟩ := hread'
    cases heq
    refine record_encodes hstruct hinside hbytes (encodes_foldlM
      (fun entry : FMField × FMVarInfo => sizeOfInt entry.1.fieldOffset)
      (fun entry => (pointerSpan formats f entry).2) (touchSize formats f)
      (fun entry _ => touchSize_le formats f entry) hstruct.apart
      (fun entry hentry => ?_) (fun done entry rest hsplit s₁ seen₁ w r₁ hbeside hkeeps hw => ?_) h
      hvalues)
    · have hspan := hstruct.inside entry hentry
      simp only [InRecord, pointerSpan] at hspan ⊢
      omega
    · exact field_encodes hstruct hflats ih hf hinside hbytes hsplit hkeeps hbeside hw

/-! ## The walk -/

theorem handleSubfield_encodes (hhost : ∀ f ∈ formats, OnHost f)
    (hstruct : ∀ f ∈ formats, Structured formats f) (fuel : Nat) :
    AllEncode mem formats root header fuel := by
  induction fuel with
  | zero =>
    intro f s seen chain n d addr p parent v r' hf h hcopied hflat hread
    cases hread
  | succ fuel ih =>
    intro f s seen chain n d addr p parent v r' hf h hcopied hflat hread
    have hflats : ReadsFlat formats fuel := readsFlat hstruct fuel
    cases chain with
    | nil => cases hread
    | cons desc next =>
      cases hdesc : desc.type with
      | pointer => exact pointer_encodes hdesc (hhost f hf) hflats ih hf h hcopied hread
      | string => exact string_encodes hdesc (hhost f hf) h hcopied hread
      | array => exact array_encodes hdesc (hhost f hf) ih hf h hcopied hflat hread
      | subformat =>
        rw [readValue] at hread
        rw [handleSubfield]
        simp only [hdesc, Option.bind_eq_bind, Option.bind_eq_some_iff] at hread ⊢
        obtain ⟨sub, hsub, hread⟩ := hread
        have hmem := mem_of_subformatOf hsub
        have hn : n = sizeOfInt sub.recordLength := by
          simpa [determineSize, hdesc, hsub] using hcopied.size.symm
        subst hn
        obtain ⟨s', seen', hs', hbeside, hr', hkeeps, hback⟩ := subfields_encodes (hstruct sub hmem)
          hflats ih hmem h hcopied.inside (fun k hk => hcopied.bytes hk) hread
        refine ⟨s', seen', by rw [hsub]; exact hs', hbeside, hr', hkeeps,
          fun hlen m x strings start hstart hspans hblocks => ?_⟩
        simp only [readValue, hdesc, hsub, Option.bind_eq_bind, Option.bind_some]
        exact hback hlen m x strings start hstart hspans hblocks
      | simple =>
        simp only [fieldIsFlat, hdesc] at hflat
        cases hflat

/-! ## Messages -/

theorem dvd_length_headerBytes (format : StoredFormat) : 8 ∣ (headerBytes format).length := by
  have hlen : (headerBytes format).length =
      (format.serverID.length + if format.format.top.variant then 8 else 0) +
        alignPad 8 (format.serverID.length + if format.format.top.variant then 8 else 0) := by
    rw [headerBytes, List.length_append, List.length_replicate]
    omega
  rw [hlen]
  exact dvd_add_alignPad _

/-- The state in which the fields of a variant record are walked. -/
theorem beside_start {format : StoredFormat} {b : FFSBuffer} {data : Nat}
    (hpos : 0 < sizeOfInt format.format.top.recordLength) (leaf : Bool) :
    let header := (headerBytes format).length
    let s := (initEncodeState true false b).setupHeader format
    let r := s.placeBlock mem
      ⟨leaf, 1, sizeOfInt format.format.top.recordLength⟩ data
    r.2.1 = header ∧ r.1.outputLen = header + sizeOfInt format.format.top.recordLength ∧
      (∀ k < sizeOfInt format.format.top.recordLength,
        r.1.buf.tmpBuffer (header + k) = mem (data + k)) ∧
      Beside (if format.format.top.recursive then some data else none) header
        (if format.format.top.recursive then r.1.addToAddrList data r.2.1 else r.1) [] := by
  intro header s r
  have hvisited : Visited s ⟨[], []⟩ := ⟨rfl, rfl, Nat.zero_add _, rfl, rfl, rfl⟩
  have hlen : s.outputLen = header := rfl
  obtain ⟨hv, -, -, -, hend, hbytes⟩ := @Visited.placeBlock s mem _ hvisited
    ⟨leaf, 1, sizeOfInt format.format.top.recordLength⟩ data
  obtain ⟨e, he⟩ := Option.isSome_iff_exists.mp hvisited.tmp
  obtain ⟨happended, -, hresult⟩ := @placeBlock_appended mem s e rfl he
    ⟨leaf, 1, sizeOfInt format.format.top.recordLength⟩ data
  have hoffset : r.2.1 = header := by
    rw [show r.2 = _ from hresult]
    show header + alignPad 1 header = header
    rw [alignPad, Nat.mod_one, Nat.add_zero]
  have houtput : r.1.outputLen = header + sizeOfInt format.format.top.recordLength := by
    rw [← hoffset]
    exact hend.symm
  have hbeside : ∀ root first, (∀ entry ∈ first, root = some entry.1) →
      Beside root header { r.1 with addrList := first } [] := by
    intro root first hfirst
    refine ⟨hv.copyAll, hv.noLeafCopy, hv.inUse, hv.tmp, ?_, ⟨dvd_length_headerBytes format, ?_⟩,
      ⟨first, (List.append_nil first).symm, hfirst⟩, List.nodup_nil, List.nodup_nil,
      fun e he => absurd he List.not_mem_nil, fun e he => absurd he List.not_mem_nil⟩
    · exact happended.setup.saved
    · show header < r.1.outputLen
      omega
  have hempty : r.1.addrList = [] := happended.setup.addrList
  refine ⟨hoffset, houtput, fun k hk => ?_, ?_⟩
  · have hbyte := hbytes hk
    rw [show (s.placeBlock mem ⟨leaf, 1, _⟩ data).2.1 = header from hoffset] at hbyte
    exact hbyte
  · cases format.format.top.recursive with
    | true =>
      refine cast (congrArg (Beside _ _ · _) ?_) (hbeside (some data) [(data, r.2.1)]
        (by simp))
      rw [if_pos rfl, EncodeState.addToAddrList, hempty]
      rfl
    | false =>
      refine cast (congrArg (Beside _ _ · _) ?_) (hbeside none [] (by simp))
      rw [if_neg (by decide), ← hempty]

/-- A memory has the message of an encoder: its record at `x`, and its blocks at `strings`. -/
structure HasMessage (m : Mem) (format : StoredFormat) (s : EncodeState) (x strings : Nat) :
    Prop where
  record : ∀ k < sizeOfInt format.format.top.recordLength,
    m (x + k) = s.buf.tmpBuffer ((headerBytes format).length + k)
  blocks : ∀ i, (headerBytes format).length + blocksStart format.format.top ≤ i → i < s.outputLen →
    m (strings + (i - (headerBytes format).length - blocksStart format.format.top)) =
      s.buf.tmpBuffer i

/-- What `FFSencode` makes of a value that can be read, and what is read of it. -/
theorem encodeRecord_readsBack {format : StoredFormat} {b : FFSBuffer} {data : Nat}
    (hhost : ∀ f ∈ format.format.bodies, OnHost f)
    (hstruct : ∀ f ∈ format.format.bodies, Structured format.format.bodies f)
    (hpos : 0 < sizeOfInt format.format.top.recordLength)
    (hread : applicationValue mem fuel format.format data = some v) :
    ∃ s, encodeRecord mem fuel format data (initEncodeState true false b) = some s ∧
      (headerBytes format).length + blocksStart format.format.top ≤ s.outputLen ∧
      (s.outputLen < 2 ^ 64 → ∀ m x strings, HasMessage m format s x strings →
        messageValue m fuel format.format x strings =
          some (v, s.outputLen - (headerBytes format).length)) := by
  have htop : format.format.top ∈ format.format.bodies := List.mem_cons_self
  have hflats : ReadsFlat format.format.bodies fuel := readsFlat hstruct fuel
  obtain ⟨hoffset, houtput, hbytes, hbeside⟩ :=
    @beside_start mem format b data hpos (!format.format.top.variant)
  simp only [applicationValue, Option.map_eq_some_iff] at hread
  obtain ⟨⟨w, t⟩, hread, rfl⟩ := hread
  unfold encodeRecord
  dsimp only
  generalize ((initEncodeState true false b).setupHeader format).placeBlock mem
    ⟨!format.format.top.variant, 1, sizeOfInt format.format.top.recordLength⟩ data = r
    at hoffset houtput hbytes hbeside ⊢
  cases hvariant : format.format.top.variant with
  | false =>
    have hstart : blocksStart format.format.top = sizeOfInt format.format.top.recordLength := by
      rw [blocksStart, hvariant, if_neg (by decide)]
    refine ⟨r.1, rfl, by omega, fun _ m x strings hmessage => ?_⟩
    obtain ⟨-, hvalue⟩ := @readEntries_flat _ _ _
      (messageLinks strings (blocksStart format.format.top)) _ m _ (hstruct _ htop) hvariant hflats
      _ x _ ⟨blocksStart format.format.top, []⟩ _ _
      (fun k hk => (hmessage.record k hk).trans (hbytes k hk)) hread
    rw [messageValue, hvalue, hstart, houtput, Nat.add_sub_cancel_left]
    rfl
  | true =>
    have hstart : blocksStart format.format.top = sizeOfInt format.format.top.recordLength +
        alignPad 8 (sizeOfInt format.format.top.recordLength) := by
      rw [blocksStart, hvariant, if_pos rfl]
    simp only [Bool.not_true, Bool.false_eq_true, if_false]
    have hsame : (if format.format.top.recursive = true then r.1.addToAddrList data r.2.1
        else r.1).outputLen = r.1.outputLen ∧
        (if format.format.top.recursive = true then r.1.addToAddrList data r.2.1
        else r.1).buf.tmpBuffer = r.1.buf.tmpBuffer := by
      split <;> exact ⟨rfl, rfl⟩
    generalize (if format.format.top.recursive = true then r.1.addToAddrList data r.2.1
      else r.1) = s₁ at hbeside hsame ⊢
    obtain ⟨hbeside₂, hkeeps, -, halign, hend, -⟩ :=
      @Beside.place mem _ _ _ _ hbeside ⟨false, 8, 0⟩ 0
    generalize s₁.placeBlock mem ⟨false, 8, 0⟩ 0 = r₂ at hbeside₂ hkeeps halign hend ⊢
    have hpad := alignPad_sub (dvd_length_headerBytes format)
      (show (headerBytes format).length ≤ s₁.outputLen by omega)
    rw [hsame.1, houtput, Nat.add_sub_cancel_left] at hpad
    simp only [hsame.1, houtput] at halign hend
    have hbytes₂ : ∀ k < sizeOfInt format.format.top.recordLength,
        r₂.1.buf.tmpBuffer ((headerBytes format).length + k) = mem (data + k) := by
      intro k hk
      rw [hkeeps.bytes (by omega) (by simp), hsame.2, hbytes k hk]
    rw [hoffset]
    obtain ⟨s', seen', hs', hbeside', rfl, hkeeps', hback⟩ := subfields_encodes (hstruct _ htop)
      hflats (handleSubfield_encodes hhost hstruct fuel) htop hbeside₂ (by omega) hbytes₂ hread
    have hle := hkeeps'.outputLen
    refine ⟨_, by rw [hs']; rfl, by show _ ≤ s'.outputLen; omega,
      fun hlen m x strings hmessage => ?_⟩
    have hlen : s'.outputLen < 2 ^ 64 := hlen
    -- The length is stored in the header.
    have hstored : ∀ i, (headerBytes format).length ≤ i →
        (s'.store format.serverID.length (leBytes 8 (s'.outputLen -
          ((initEncodeState true false b).setupHeader format).outputLen))).buf.tmpBuffer i =
            s'.buf.tmpBuffer i := by
      intro i hi
      have hroom := length_headerBytes_of_variant hvariant
      exact Mem.write_outside (by rw [length_leBytes]; omega)
    have hvalue := hback hlen m x strings (blocksStart format.format.top) (by omega) ?_ ?_
    · have hreading : messageReading (headerBytes format).length r₂.1 [] =
          ⟨blocksStart format.format.top, []⟩ := by
        rw [messageReading, show r₂.1.outputLen - (headerBytes format).length =
          blocksStart format.format.top by omega]
        rfl
      rw [hreading] at hvalue
      beta_reduce at hvalue
      rw [messageValue, hvalue]
      rfl
    · intro span hspan k hk
      obtain rfl := List.mem_singleton.mp hspan
      rw [← hstored _ (by simp only; omega), ← hmessage.record k hk]
      congr 1
      simp only
      omega
    · intro i hi hi'
      rw [← hstored i (by omega)]
      exact hmessage.blocks i (by omega) hi'

/-! ## The message -/

/-- The message of `FFSencode` reads as the value that was encoded, wherever it lies. -/
theorem encode_messageValue {format : StoredFormat} {b : FFSBuffer} {data : Nat}
    (hhost : ∀ f ∈ format.format.bodies, OnHost f)
    (hstruct : ∀ f ∈ format.format.bodies, Structured format.format.bodies f)
    (hpos : 0 < sizeOfInt format.format.top.recordLength)
    (hread : applicationValue mem fuel format.format data = some v) :
    ∃ b' message, encode mem fuel b format data = some (b', message) ∧
      (message.length < 2 ^ 64 → ∀ m a, m.read a message.length = message →
        messageValue m fuel format.format (a + (headerBytes format).length)
            (a + (headerBytes format).length + blocksStart format.format.top) =
          some (v, message.length - (headerBytes format).length)) := by
  obtain ⟨s, hs, hle, hback⟩ :=
    @encodeRecord_readsBack _ _ _ _ b _ hhost hstruct hpos hread
  refine ⟨s.buf, s.buf.tmpBuffer.read 0 s.outputLen, by rw [encode, hs]; rfl, ?_⟩
  rw [Mem.length_read]
  intro hlen m a hmessage
  have hbyte : ∀ i < s.outputLen, m (a + i) = s.buf.tmpBuffer i := by
    intro i hi
    have htmp := Mem.getElem?_of_read (rfl : s.buf.tmpBuffer.read 0 s.outputLen = _) hi
    rw [Mem.getElem?_of_read hmessage hi, Nat.zero_add] at htmp
    exact Option.some.inj htmp
  have hrecord := le_blocksStart format.format.top
  refine hback hlen m _ _ ⟨fun k hk => ?_, fun i hi hi' => ?_⟩
  · rw [← hbyte _ (by omega)]
    congr 1
    omega
  · rw [← hbyte i hi']
    congr 1
    omega

/-! ### A ring -/

/-- A list whose links have an array and a name. -/
def ringList : List FMStructDesc :=
  [{ formatName := cstr ['l', 'i', 'n', 'k'] (.refl false),
     fieldList := [
       { fieldName := cstr ['n'] (.refl false),
         fieldType := cstr ['i', 'n', 't', 'e', 'g', 'e', 'r'] (.refl false),
         fieldSize := 4, fieldOffset := 0 },
       { fieldName := cstr ['v'] (.refl false),
         fieldType := cstr ['i', 'n', 't', 'e', 'g', 'e', 'r', '[', 'n', ']'] (.refl false),
         fieldSize := 4, fieldOffset := 8 },
       { fieldName := cstr ['t'] (.refl false),
         fieldType := cstr ['s', 't', 'r', 'i', 'n', 'g'] (.refl false),
         fieldSize := 8, fieldOffset := 16 },
       { fieldName := cstr ['p'] (.refl false),
         fieldType := cstr ['*', 'l', 'i', 'n', 'k'] (.refl false),
         fieldSize := 32, fieldOffset := 24 }],
     structSize := 32, optInfo := [] }]

def ringFormat : Option StoredFormat :=
  (registerDataFormat hashlittle2 false { formatList := [], nativeColumnMajorArrays := false }
    ringList).map Prod.snd

/-- The first link at 100 has two numbers and the name `x` and leads to one at 200, which has one
number and leads to itself. -/
def ringMem : Mem :=
  [(100, leBytes 4 2), (108, leBytes 8 300), (116, leBytes 8 400), (124, leBytes 8 200),
    (200, leBytes 4 1), (208, leBytes 8 304), (224, leBytes 8 200),
    (300, leBytes 4 1 ++ leBytes 4 2), (400, [120, 0])].foldl
      (fun m (addr, bytes) => m.write addr bytes) fun _ => 0

theorem ringFormat_reads : ringFormat.any (fun format =>
    decide (∀ f ∈ format.format.bodies, OnHost f ∧ Structured format.format.bodies f) &&
      decide (0 < sizeOfInt format.format.top.recordLength) &&
      (applicationValue ringMem 8 format.format 100).isSome) = true := by
  decide +kernel

theorem encode_messageValue_ring : ∃ format v b' message, ringFormat = some format ∧
    applicationValue ringMem 8 format.format 100 = some v ∧
    encode ringMem 8 ⟨fun _ => 0, 0⟩ format 100 = some (b', message) ∧
    (message.length < 2 ^ 64 → ∀ m a, m.read a message.length = message →
      messageValue m 8 format.format (a + (headerBytes format).length)
          (a + (headerBytes format).length + blocksStart format.format.top) =
        some (v, message.length - (headerBytes format).length)) := by
  obtain ⟨format, hformat, hfacts⟩ := (Option.any_eq_true _ _).mp ringFormat_reads
  simp only [Bool.and_eq_true, decide_eq_true_eq] at hfacts
  obtain ⟨⟨hbodies, hpos⟩, hsome⟩ := hfacts
  obtain ⟨v, hv⟩ := Option.isSome_iff_exists.mp hsome
  obtain ⟨b', message, hencode, hback⟩ :=
    @encode_messageValue ringMem 8 v format ⟨fun _ => 0, 0⟩ 100 (fun f hf => (hbodies f hf).1)
      (fun f hf => (hbodies f hf).2) hpos hv
  exact ⟨format, v, b', message, hformat, hv, hencode, hback⟩

end FFS
