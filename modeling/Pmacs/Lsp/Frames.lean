/-
  The `Content-Length` frames of a language server (lsp.rs).

  * `FrameParser.nextFrame` takes a frame off the front of the buffer, `encodeFrame` writes one;
  * `nextFrame_incremental`: what it answers stands whatever comes after;
  * `Oversized`: after some frames there is a header whose length is too large to be added to
    its place, on which the parser panics;
  * `feedChunks_frames`: however a stream is cut into chunks, its frames and how they end are
    the same, and the parser panics just when it is oversized.
-/
import Pmacs.Lib.Incremental
import Pmacs.Lib.Integers
import Pmacs.Lib.Utf8
import Pmacs.Rope.Tree

namespace Pmacs

open Lib Lib.Utf8 List Option

inductive FrameError where
  | headerNotUtf8
  | malformedHeader (line : List Char)
  | missingContentLength
deriving DecidableEq, Repr

/-! ## Text -/

/-- `char::is_whitespace`: the property `White_Space`. -/
def isWhitespace (c : Char) : Bool :=
  let n := c.toNat
  (0x9 ≤ n && n ≤ 0xD) || n == 0x20 || n == 0x85 || n == 0xA0 || n == 0x1680 ||
    (0x2000 ≤ n && n ≤ 0x200A) || n == 0x2028 || n == 0x2029 || n == 0x202F || n == 0x205F ||
    n == 0x3000

/-- `str::trim`. -/
def trim (cs : List Char) : List Char := (cs.dropWhile isWhitespace).rdropWhile isWhitespace

/-- `str::split_once`. -/
def splitOnce (sep : Char) (cs : List Char) : Option (List Char × List Char) :=
  if sep ∈ cs then some (cs.takeWhile (· ≠ sep), (cs.dropWhile (· ≠ sep)).tail) else none

/-- `str::split("\r\n")`. -/
def splitCrlf : List Char → List (List Char)
  | [] => [[]]
  | '\r' :: '\n' :: cs => [] :: splitCrlf cs
  | c :: cs => (splitCrlf cs).modifyHead (c :: ·)

def findSubsequence (haystack needle : Bytes) : Option ℕ :=
  haystack.tails.findIdx? fun window => needle.isPrefixOf window

/-! ## The parser -/

namespace FrameParser

/-- `\r\n\r\n`. -/
def terminator : Bytes := [0x0D, 0x0A, 0x0D, 0x0A]

/-- `content-length`. -/
def lengthKey : List Char :=
  ['c', 'o', 'n', 't', 'e', 'n', 't', '-', 'l', 'e', 'n', 'g', 't', 'h']

def headerLine (contentLength : Option ℕ) (line : List Char) : Except FrameError (Option ℕ) :=
  if line = [] then .ok contentLength
  else
    match splitOnce ':' line with
    | none => .error (.malformedHeader line)
    | some (key, value) =>
      -- `eq_ignore_ascii_case`
      if (trim key).map Char.toLower = lengthKey then
        match parseDecimal usizeMax (trim value) with
        | none => .error (.malformedHeader line)
        | some n => .ok (some n)
      else .ok contentLength

def readHeader (header : Bytes) : Except FrameError ℕ :=
  match fromUtf8 header with
  | none => .error .headerNotUtf8
  | some cs =>
    match (splitCrlf cs).foldlM headerLine none with
    | .error e => .error e
    | .ok none => .error .missingContentLength
    | .ok (some n) => .ok n

/-- `next_frame`: the body of the frame at the front of the buffer and what is left of it. None
    panics: `header_end + 4 + body_len` wraps around, to a sum below where the body starts. -/
def nextFrame (buf : Bytes) : Option (Except FrameError (Option (Bytes × Bytes))) :=
  match findSubsequence buf terminator with
  | none => some (.ok none)
  | some headerEnd =>
    match readHeader (buf.take headerEnd) with
    | .error e => some (.error e)
    | .ok bodyLen => do
      let frameTotal ← checkedAdd usizeMax (headerEnd + 4) bodyLen
      if buf.length < frameTotal then some (.ok none)
      else
        let body := (buf.take frameTotal).drop (headerEnd + 4)
        some (.ok (some (body, buf.drop frameTotal)))

end FrameParser

/-- `format!("Content-Length: {}", len)`. -/
def frameHeader (len : ℕ) : List Char :=
  ['C', 'o', 'n', 't', 'e', 'n', 't', '-', 'L', 'e', 'n', 'g', 't', 'h', ':', ' '] ++
    Nat.toDigits 10 len

def encodeFrame (body : Bytes) : Bytes :=
  encode (frameHeader body.length) ++ FrameParser.terminator ++ body

/-! ## The front of the buffer -/

variable {ys : Bytes}

section
variable {haystack needle : Bytes} {i : ℕ}

theorem findSubsequence_eq_some : findSubsequence haystack needle = some i ↔
    i ≤ haystack.length ∧ needle <+: haystack.drop i ∧ ∀ j < i, ¬needle <+: haystack.drop j := by
  rw [findSubsequence, findIdx?_eq_some_iff_getElem]
  simp only [getElem_tails, length_tails, Nat.lt_succ_iff, isPrefixOf_iff_prefix, exists_prop]

variable (h : findSubsequence haystack needle = some i)
include h

/-- The first place of a needle is the first when more comes after. -/
theorem findSubsequence_append : findSubsequence (haystack ++ ys) needle = some i := by
  obtain ⟨hle, hneedle, hfirst⟩ := findSubsequence_eq_some.1 h
  have hlen := hneedle.length_le
  rw [length_drop] at hlen
  refine findSubsequence_eq_some.2 ⟨by rw [length_append]; omega, ?_, fun j hj hfound => ?_⟩
  · rw [drop_append_of_le_length hle]; exact hneedle.trans (prefix_append _ _)
  rw [drop_append_of_le_length (by omega)] at hfound
  refine hfirst j hj (prefix_of_prefix_length_le hfound (prefix_append _ _) ?_); rw [length_drop]
  omega

theorem length_of_findSubsequence : i + needle.length ≤ haystack.length := by
  obtain ⟨hle, hneedle, -⟩ := findSubsequence_eq_some.1 h
  have hlen := hneedle.length_le
  rw [length_drop] at hlen
  omega

end

namespace FrameParser

variable {body : Bytes}

section
variable {buf : Bytes} {headerEnd bodyLen : ℕ}

/-- The header of the frame at the front, and the length that it declares. -/
def Declares (buf : Bytes) (headerEnd bodyLen : ℕ) : Prop :=
  findSubsequence buf terminator = some headerEnd ∧
    readHeader (buf.take headerEnd) = .ok bodyLen

theorem Declares.append (h : Declares buf headerEnd bodyLen) (ys : Bytes) :
    Declares (buf ++ ys) headerEnd bodyLen := by
  have hlen := length_of_findSubsequence h.1
  refine ⟨findSubsequence_append h.1, ?_⟩
  rw [take_append_of_le_length (by omega)]
  exact h.2

theorem nextFrame_of_declares (h : Declares buf headerEnd bodyLen) :
    nextFrame buf = if usizeMax < headerEnd + 4 + bodyLen then none
      else if buf.length < headerEnd + 4 + bodyLen then some (.ok none)
      else some (.ok (some ((buf.drop (headerEnd + 4)).take bodyLen,
        buf.drop (headerEnd + 4 + bodyLen)))) := by
  unfold nextFrame
  rw [h.1]
  dsimp only
  rw [h.2]
  dsimp only [checkedAdd]
  by_cases hover : usizeMax < headerEnd + 4 + bodyLen
  · rw [if_pos hover, if_neg (not_le.2 hover)]; rfl
  rw [if_neg hover, if_pos (not_lt.1 hover), bind_eq_bind, bind_some,
    drop_take, Nat.add_sub_cancel_left]

theorem nextFrame_cases (buf : Bytes) : (∃ headerEnd bodyLen, Declares buf headerEnd bodyLen) ∨
    findSubsequence buf terminator = none ∧ nextFrame buf = some (.ok none) ∨
    ∃ headerEnd e, findSubsequence buf terminator = some headerEnd ∧
      readHeader (buf.take headerEnd) = .error e ∧ nextFrame buf = some (.error e) := by
  unfold nextFrame
  cases hfind : findSubsequence buf terminator with
  | none => exact .inr (.inl ⟨rfl, rfl⟩)
  | some headerEnd =>
    cases hread : readHeader (buf.take headerEnd) with
    | error e => exact .inr (.inr ⟨headerEnd, e, rfl, hread, by simp only [hread]⟩)
    | ok bodyLen => exact .inl ⟨headerEnd, bodyLen, hfind, hread⟩

/-- **One call panics** just when a header declares a length that is too large to be added to
    its place. -/
theorem nextFrame_eq_none : nextFrame buf = none ↔
    ∃ headerEnd bodyLen, Declares buf headerEnd bodyLen ∧ usizeMax < headerEnd + 4 + bodyLen := by
  constructor
  · intro h
    rcases nextFrame_cases buf with ⟨headerEnd, bodyLen, hdecl⟩ | ⟨-, hmore⟩ | ⟨_, e, -, -, herr⟩
    · rw [nextFrame_of_declares hdecl] at h
      split_ifs at h with hover
      exact ⟨headerEnd, bodyLen, hdecl, hover⟩
    · rw [hmore] at h; cases h
    · rw [herr] at h; cases h
  · rintro ⟨headerEnd, bodyLen, hdecl, hover⟩; rw [nextFrame_of_declares hdecl, if_pos hover]

theorem nextFrame_eq_item {rest : Bytes}
    (h : nextFrame buf = some (.ok (some (body, rest)))) : ∃ headerEnd bodyLen,
    Declares buf headerEnd bodyLen ∧ headerEnd + 4 + bodyLen ≤ usizeMax ∧
      headerEnd + 4 + bodyLen ≤ buf.length ∧ body = (buf.drop (headerEnd + 4)).take bodyLen ∧
      rest = buf.drop (headerEnd + 4 + bodyLen) := by
  rcases nextFrame_cases buf with ⟨headerEnd, bodyLen, hdecl⟩ | ⟨-, hmore⟩ | ⟨_, e, -, -, herr⟩
  · rw [nextFrame_of_declares hdecl] at h
    split_ifs at h with hover hshort
    · cases h
    simp only [some.injEq, Except.ok.injEq, Prod.mk.injEq] at h
    exact ⟨headerEnd, bodyLen, hdecl, not_lt.1 hover, not_lt.1 hshort, h.1.symm, h.2.symm⟩
  · rw [hmore] at h; cases h
  · rw [herr] at h; cases h

/-- **What is at the front stands** whatever comes after. -/
theorem nextFrame_incremental : Incremental nextFrame where
  consumes h := by
    obtain ⟨headerEnd, bodyLen, -, -, hle, -, rfl⟩ := nextFrame_eq_item h; rw [length_drop]; omega
  item h ys := by
    obtain ⟨headerEnd, bodyLen, hdecl, hmax, hle, rfl, rfl⟩ := nextFrame_eq_item h
    have hlen : headerEnd + 4 + bodyLen ≤ _ := hle.trans (Nat.le_add_right _ ys.length)
    rw [nextFrame_of_declares (hdecl.append ys), if_neg (not_lt.2 hmax),
      if_neg (by rw [length_append]; omega), drop_append_of_le_length hle,
      drop_append_of_le_length (by omega), take_append_of_le_length (by
        rw [length_drop]; omega)]
  error {xs e} h ys := by
    rcases nextFrame_cases xs with ⟨headerEnd, bodyLen, hdecl⟩ | ⟨-, hmore⟩ |
      ⟨headerEnd, e', hfind, hread, herr⟩
    · rw [nextFrame_of_declares hdecl] at h
      split_ifs at h
      · cases h
      · cases h
    · rw [hmore] at h; cases h
    have hlen := length_of_findSubsequence hfind; rw [herr] at h; unfold nextFrame
    rw [findSubsequence_append hfind]; dsimp only
    rw [take_append_of_le_length (by omega), hread]; exact h
  panic h ys := by
    obtain ⟨headerEnd, bodyLen, hdecl, hover⟩ := nextFrame_eq_none.1 h
    exact nextFrame_eq_none.2 ⟨headerEnd, bodyLen, hdecl.append ys, hover⟩
  empty := rfl

end

/-! ## The frames that are written -/

section
variable {len : ℕ}

theorem splitCrlf_of_notMem : ∀ {cs : List Char}, '\r' ∉ cs → splitCrlf cs = [cs]
  | [], _ => rfl
  | c :: cs, h => by
    rw [mem_cons, not_or] at h
    rw [splitCrlf, splitCrlf_of_notMem h.2]
    · rfl
    · rintro _ rfl _; exact h.1 rfl

theorem isDigit_toDigits : ∀ c ∈ Nat.toDigits 10 len, c.isDigit = true :=
  fun _ hc => Nat.isDigit_of_mem_toDigits (by decide) (by decide) hc

theorem toNat_of_isDigit {c : Char} (h : c.isDigit = true) : 48 ≤ c.toNat ∧ c.toNat ≤ 57 := by
  simpa [Char.isDigit, UInt32.le_iff_toNat_le] using h

theorem isWhitespace_of_isDigit {c : Char} (h : c.isDigit = true) : isWhitespace c = false := by
  have hrange := toNat_of_isDigit h
  unfold isWhitespace
  simp only [Bool.or_eq_false_iff, Bool.and_eq_false_iff, decide_eq_false_iff_not, beq_eq_false_iff_ne]
  omega

theorem trim_digits {digits : List Char} (h : ∀ c ∈ digits, c.isDigit = true) :
    trim (' ' :: digits) = digits := by
  have hfront : (' ' :: digits).dropWhile isWhitespace = digits := by
    rw [dropWhile_cons_of_pos (by decide)]
    cases digits with
    | nil => rfl
    | cons c digits =>
      exact dropWhile_cons_of_neg (by simp [isWhitespace_of_isDigit (h c mem_cons_self)])
  rw [trim, hfront, rdropWhile_eq_self_iff]
  intro hne
  simp [isWhitespace_of_isDigit (h _ (getLast_mem hne))]

theorem readHeader_frameHeader (hlen : len ≤ usizeMax) :
    readHeader (encode (frameHeader len)) = .ok len := by
  have hdigits : ∀ c ∈ Nat.toDigits 10 len, c.isDigit = true := isDigit_toDigits
  have hreturn : '\r' ∉ frameHeader len := by
    rw [frameHeader, mem_append, not_or]
    exact ⟨by decide, fun hmem => absurd (hdigits _ hmem) (by decide)⟩
  have hsplit : splitOnce ':' (frameHeader len) =
      some (['C', 'o', 'n', 't', 'e', 'n', 't', '-', 'L', 'e', 'n', 'g', 't', 'h'],
        ' ' :: Nat.toDigits 10 len) := by
    have hcolon : ':' ∈ frameHeader len := mem_append_left _ (by decide)
    rfl
  have hvalue : parseDecimal usizeMax (trim (' ' :: Nat.toDigits 10 len)) = some len := by
    have hread := Nat.ofDigitChars_toDigits (b := 10) (n := len) (by decide) (by decide)
    rw [trim_digits hdigits, parseDecimal_of_digits Nat.toDigits_ne_nil
      (all_eq_true.2 hdigits) (hread.trans_le hlen), hread]
  have hkey : (trim ['C', 'o', 'n', 't', 'e', 'n', 't', '-', 'L', 'e', 'n', 'g', 't', 'h']).map
      Char.toLower = lengthKey := by decide
  have hline : headerLine none (frameHeader len) = .ok (some len) := by
    unfold headerLine; rw [if_neg (by simp [frameHeader]), hsplit]; dsimp only
    rw [if_pos hkey, hvalue]
  unfold readHeader
  rw [fromUtf8_encode]
  dsimp only
  rw [splitCrlf_of_notMem hreturn, foldlM_cons, hline]
  rfl

theorem encode_ascii {cs : List Char} (h : ∀ c ∈ cs, c.toNat ≤ 0x7F) :
    encode cs = cs.map fun c => UInt8.ofNat c.toNat := by
  induction cs with
  | nil => rfl
  | cons c cs ih =>
    have hc : String.utf8EncodeChar c = [UInt8.ofNat c.toNat] := by exact if_pos (h c mem_cons_self)
    rw [encode_cons, hc, ih fun c' hc' => h c' (mem_cons_of_mem _ hc')]; rfl

theorem frameHeader_ascii : ∀ c ∈ frameHeader len, c.toNat ≤ 0x7F ∧ c.toNat ≠ 0x0D := by
  intro c hmem
  rcases mem_append.1 hmem with hc | hc
  · clear hmem
    revert c
    simp
  · have hrange := toNat_of_isDigit (isDigit_toDigits c hc); omega

theorem notMem_encode_frameHeader : 0x0D ∉ encode (frameHeader len) := by
  rw [encode_ascii fun c hc => (frameHeader_ascii c hc).1]
  intro hmem
  obtain ⟨c, hc, hbyte⟩ := mem_map.1 hmem
  obtain ⟨hle, hne⟩ := frameHeader_ascii c hc
  have hnat := congrArg UInt8.toNat hbyte
  rw [UInt8.toNat_ofNat', Nat.mod_eq_of_lt (by omega)] at hnat
  exact hne hnat

theorem declares_encode (hlen : body.length ≤ usizeMax) :
    Declares (encodeFrame body ++ ys) (encode (frameHeader body.length)).length body.length := by
  obtain ⟨header, hheader⟩ : ∃ header, header = encode (frameHeader body.length) := ⟨_, rfl⟩
  have hbuf : encodeFrame body ++ ys = header ++ (terminator ++ (body ++ ys)) := by
    rw [encodeFrame, ← hheader]; simp
  rw [Declares, hbuf, ← hheader, take_left, hheader]
  refine ⟨findSubsequence_eq_some.2 ⟨by simp, ?_, fun j hj hfound => ?_⟩,
    readHeader_frameHeader hlen⟩
  · rw [drop_left]; exact prefix_append _ _
  -- a terminator that starts in the header starts with a byte of the header
  obtain ⟨tail, htail⟩ := hfound; have hhead := congrArg List.head? htail
  rw [head?_drop, getElem?_append_left hj] at hhead
  exact notMem_encode_frameHeader (mem_of_getElem? hhead.symm)

theorem length_frameHeader {n : ℕ} (h : n < 2 ^ 63) : (encode (frameHeader n)).length ≤ 35 := by
  have hdigits : (Nat.toDigits 10 n).length ≤ 19 :=
    (Nat.length_toDigits_le_iff (by decide) (by decide)).2 (by omega)
  have hascii : (encode (frameHeader n)).length = (frameHeader n).length := by
    rw [encode_ascii fun c hc => (frameHeader_ascii c hc).1, length_map]
  rw [hascii, frameHeader, length_append]
  exact Nat.add_le_add_left hdigits 16

/-- **A frame that was written is taken off.** -/
theorem nextFrame_encode (hlen : body.length < 2 ^ 63) :
    nextFrame (encodeFrame body ++ ys) = some (.ok (some (body, ys))) := by
  have hsize : body.length ≤ usizeMax := by unfold usizeMax; omega
  obtain ⟨header, hheader⟩ : ∃ header, header = encode (frameHeader body.length) := ⟨_, rfl⟩
  have hbuf : encodeFrame body ++ ys = (header ++ terminator) ++ (body ++ ys) := by
    rw [encodeFrame, ← hheader]; simp
  have hplace : header.length + 4 = (header ++ terminator).length := by rw [length_append]; rfl
  have hshort : header.length ≤ 35 := hheader ▸ length_frameHeader hlen
  rw [nextFrame_of_declares (declares_encode hsize), ← hheader, hbuf, hplace, ← drop_drop,
    drop_left, take_left, drop_left, if_neg, if_neg]
  · simp only [length_append]; omega
  · unfold usizeMax; omega

/-- **The frames of what was written** are what was written. -/
theorem drainAll_encode {bodies : List Bytes} (h : ∀ body ∈ bodies, body.length < 2 ^ 63) :
    drainAll nextFrame (bodies.map encodeFrame).flatten = (bodies, .more []) := by
  induction bodies with
  | nil => exact drain_more rfl
  | cons body bodies ih =>
    rw [map_cons, flatten_cons,
      drain_item nextFrame_incremental (nextFrame_encode (h body mem_cons_self)),
      ih fun b hb => h b (mem_cons_of_mem _ hb)]

end

/-! ## Streams -/

section
variable {stream rest : Bytes}

/-- What is left of a stream after some of its frames. -/
inductive AfterFrames : Bytes → Bytes → Prop
  | nil (stream : Bytes) : AfterFrames stream stream
  | cons {stream rest : Bytes} {headerEnd bodyLen : ℕ} (hdecl : Declares stream headerEnd bodyLen)
    (hwhole : headerEnd + 4 + bodyLen ≤ stream.length)
    (h : AfterFrames (stream.drop (headerEnd + 4 + bodyLen)) rest) : AfterFrames stream rest

/-- After some frames there is a header that declares a length too large to be added to its
    place. -/
def Oversized (stream : Bytes) : Prop :=
  ∃ rest headerEnd bodyLen, AfterFrames stream rest ∧ Declares rest headerEnd bodyLen ∧
    usizeMax < headerEnd + 4 + bodyLen

theorem Declares.unique {buf : Bytes} {headerEnd bodyLen headerEnd' bodyLen' : ℕ}
    (h : Declares buf headerEnd bodyLen) (h' : Declares buf headerEnd' bodyLen') :
    headerEnd = headerEnd' ∧ bodyLen = bodyLen' := by
  obtain rfl : headerEnd = headerEnd' := some.inj (h.1.symm.trans h'.1)
  exact ⟨rfl, Except.ok.inj (h.2.symm.trans h'.2)⟩

/-- **Where the parser panics.** -/
theorem drainAll_panic_iff : (drainAll nextFrame stream).2 = .panic ↔ Oversized stream := by
  induction hn : stream.length using Nat.strongRecOn generalizing stream with
  | _ n ih =>
  rcases nextFrame_cases stream with ⟨headerEnd, bodyLen, hdecl⟩ | ⟨hfind, hmore⟩ |
    ⟨headerEnd, e, hfind, hread, herr⟩
  · have hnext := nextFrame_of_declares hdecl
    by_cases hover : usizeMax < headerEnd + 4 + bodyLen
    · rw [if_pos hover] at hnext; rw [drain_panic hnext]
      exact iff_of_true rfl ⟨stream, headerEnd, bodyLen, .nil stream, hdecl, hover⟩
    rw [if_neg hover] at hnext
    by_cases hshort : stream.length < headerEnd + 4 + bodyLen
    · rw [if_pos hshort] at hnext; rw [drain_more hnext]
      refine iff_of_false nofun ?_; rintro ⟨rest, headerEnd', bodyLen', hafter, hdecl', hover'⟩
      cases hafter with
      | nil => obtain ⟨rfl, rfl⟩ := hdecl.unique hdecl'; exact hover hover'
      | cons hdecl'' hwhole _ =>
        obtain ⟨rfl, rfl⟩ := hdecl.unique hdecl''; exact absurd hwhole (not_le.2 hshort)
    rw [if_neg hshort] at hnext; rw [drain_item nextFrame_incremental hnext]
    have hdrop : (stream.drop (headerEnd + 4 + bodyLen)).length =
        stream.length - (headerEnd + 4 + bodyLen) := length_drop
    refine (ih _ (by omega) hdrop).trans ?_
    constructor
    · rintro ⟨rest, headerEnd', bodyLen', hafter, hdecl', hover'⟩
      exact ⟨rest, headerEnd', bodyLen', .cons hdecl (not_lt.1 hshort) hafter, hdecl', hover'⟩
    rintro ⟨rest, headerEnd', bodyLen', hafter, hdecl', hover'⟩
    cases hafter with
    | nil => obtain ⟨rfl, rfl⟩ := hdecl.unique hdecl'; exact absurd hover' hover
    | cons hdecl'' hwhole hafter =>
      obtain ⟨rfl, rfl⟩ := hdecl.unique hdecl''
      exact ⟨rest, headerEnd', bodyLen', hafter, hdecl', hover'⟩
  · rw [drain_more hmore]
    refine iff_of_false nofun ?_; rintro ⟨rest, headerEnd, bodyLen, hafter, hdecl, -⟩
    cases hafter with
    | nil => exact absurd (hfind.symm.trans hdecl.1) nofun
    | cons hdecl' _ _ => exact absurd (hfind.symm.trans hdecl'.1) nofun
  have hnone {headerEnd' bodyLen : ℕ} (hdecl : Declares stream headerEnd' bodyLen) : False := by
    obtain rfl : headerEnd = headerEnd' := some.inj (hfind.symm.trans hdecl.1)
    exact absurd (hread.symm.trans hdecl.2) nofun
  rw [drain_error herr]
  refine iff_of_false nofun ?_; rintro ⟨rest, headerEnd', bodyLen, hafter, hdecl, -⟩
  cases hafter with
  | nil => exact hnone hdecl
  | cons hdecl' _ _ => exact hnone hdecl'

/-- **The frames of a stream** and the first error are the same however it is cut into chunks,
    and the parser does not panic, just when no header that it comes to declares a length too
    large to be added to its place.  What `encodeFrame` wrote is read as it was. -/
theorem feedChunks_frames (chunks : List Bytes) :
    ((feedChunks nextFrame [] chunks = drainAll nextFrame chunks.flatten ∧
      (feedChunks nextFrame [] chunks).2 ≠ .panic) ↔ ¬Oversized chunks.flatten) ∧
    ∀ bodies : List Bytes, (∀ body ∈ bodies, body.length < 2 ^ 63) →
      chunks.flatten = (bodies.map encodeFrame).flatten →
      feedChunks nextFrame [] chunks = (bodies, .more []) := by
  rw [feedChunks_eq_drain nextFrame_incremental]
  refine ⟨?_, fun bodies hbodies hstream => by rw [hstream, drainAll_encode hbodies]⟩
  rw [← not_congr drainAll_panic_iff]
  exact and_iff_right rfl

end

/-- The frames of `{}` and `[]`. -/
def twoFrames : Bytes := encodeFrame [0x7B, 0x7D] ++ encodeFrame [0x5B, 0x5D]

/-- They arrive cut inside the first header and before the end of the first body. -/
theorem feedChunks_frames_two : feedChunks nextFrame []
    [twoFrames.take 5, (twoFrames.drop 5).take 17, twoFrames.drop 22] =
      ([[0x7B, 0x7D], [0x5B, 0x5D]], .more []) :=
  (feedChunks_frames _).2 [[0x7B, 0x7D], [0x5B, 0x5D]] (by
    simp) (by decide +kernel)

/-- `Content-Length: 18446744073709551615`. -/
def oversizedFrame : Bytes := encode (frameHeader usizeMax) ++ terminator

theorem feedChunks_not_frames :
    ¬∀ chunks : List Bytes, feedChunks nextFrame [] chunks = drainAll nextFrame chunks.flatten ∧
      (feedChunks nextFrame [] chunks).2 ≠ .panic := by
  intro hall
  have hpanic : (feedChunks nextFrame [] [oversizedFrame]).2 = .panic := by decide +kernel
  exact (hall [oversizedFrame]).2 hpanic

end FrameParser

end Pmacs
