/-
  Remote imports and the rope (buffer.rs).

  * `remoteDiff_boundaries`: the fallback cuts both texts at characters;
  * `applyRemoteCrdtOp_mirrors`: whichever is taken, the rope becomes the document's text.
-/
import Pmacs.Buffer.Agree

namespace Pmacs

open Lib Utf8 Loro

namespace Buffer

variable {L : Loro}

variable {inserted : Bytes} {d d' : L.Doc} {deltas : List (List TextDelta)} {range : Range}

/-! ## The fallback -/

theorem remoteDiff_cases {old new : Bytes} (h : remoteDiff old new = some (range, inserted)) :
    range.start = backOff (isCharBoundary old) (commonPrefix old new) ∧
    ∃ suf, (suf = 0 ∨ (isCharBoundary old (old.length - suf) = true ∧
        isCharBoundary new (new.length - suf) = true)) ∧
      range.stop = old.length - suf ∧ range.start + inserted.length = new.length - suf := by
  have hpre := backOff_le (isCharBoundary old) (commonPrefix old new)
  have hprefix := (commonPrefix_le old new).2
  rw [remoteDiff] at h
  generalize backOff (isCharBoundary old) (commonPrefix old new) = pre at *
  generalize hbound : (fun n => isCharBoundary old (old.length - n) &&
    isCharBoundary new (new.length - n)) = bound at h
  have hsuf := backOff_le bound
    (min (commonPrefix old.reverse new.reverse) (min (old.length - pre) (new.length - pre)))
  have hcut := backOff_eq_zero_or bound
    (min (commonPrefix old.reverse new.reverse) (min (old.length - pre) (new.length - pre)))
  generalize backOff bound
    (min (commonPrefix old.reverse new.reverse) (min (old.length - pre) (new.length - pre))) = suf
    at *
  split_ifs at h with hall
  cases h
  refine ⟨rfl, suf, hcut.imp_right fun hboth => ?_, rfl, ?_⟩
  · rwa [← hbound, Bool.and_eq_true] at hboth
  rw [length_slice (Nat.sub_le _ _)]; show pre + _ = _
  omega

/-- **The fallback's range and what it inserts are cut between characters**, in the old text and
    in the new one. -/
theorem remoteDiff_boundaries {cs cs' : List Char}
    (h : remoteDiff (encode cs) (encode cs') = some (range, inserted)) :
    isCharBoundary (encode cs) range.start = true ∧
    isCharBoundary (encode cs') range.start = true ∧
    isCharBoundary (encode cs) range.stop = true ∧
    isCharBoundary (encode cs') (range.start + inserted.length) = true := by
  obtain ⟨hstart, suf, hsuf, hstop, hend⟩ := remoteDiff_cases h
  have hle := backOff_le (isCharBoundary (encode cs))
    (commonPrefix (encode cs) (encode cs'))
  have hold : isCharBoundary (encode cs) range.start = true := by
    rw [hstart]
    rcases backOff_eq_zero_or (isCharBoundary (encode cs))
      (commonPrefix (encode cs) (encode cs')) with hzero | hboundary
    · rw [hzero]; exact isCharBoundary_zero
    · exact hboundary
  refine ⟨hold, ?_, ?_, ?_⟩
  · have hprefix := (commonPrefix_le (encode cs) (encode cs')).2
    refine isCharBoundary_of_take_eq (by omega) ?_ hold
    exact take_commonPrefix _ _ _ (by omega)
  · rw [hstop]
    rcases hsuf with rfl | hboth
    · exact isCharBoundary_length
    · exact hboth.1
  rw [hend]
  rcases hsuf with rfl | hboth
  · exact isCharBoundary_length
  · exact hboth.2

/-! ## The import -/

/-- Every path of an import that is open gives the document's text, and the fallback, which is
    always open, is cut between characters. -/
structure PathsAgree (d d' : L.Doc) (deltas : List (List TextDelta)) : Prop where
  insert : ∀ edit, remoteInsert d' deltas = some edit → MirrorsImport d d' (some edit)
  delete : ∀ edit, remoteDelete (Utf8.encode (L.text d)) d' deltas = some edit →
    MirrorsImport d d' (some edit)
  diff : MirrorsImport d d' (remoteDiff (Utf8.encode (L.text d)) (Utf8.encode (L.text d')))
  boundaries : ∀ range inserted,
    remoteDiff (Utf8.encode (L.text d)) (Utf8.encode (L.text d')) = some (range, inserted) →
      Utf8.isCharBoundary (Utf8.encode (L.text d)) range.start = true ∧
      Utf8.isCharBoundary (Utf8.encode (L.text d')) range.start = true ∧
      Utf8.isCharBoundary (Utf8.encode (L.text d)) range.stop = true ∧
      Utf8.isCharBoundary (Utf8.encode (L.text d')) (range.start + inserted.length) = true

theorem pathsAgree (hL : L.Laws)
    (himport : applyDeltas deltas (L.text d) = some (L.text d')) : PathsAgree d d' deltas where
  insert _ h := (remoteInsert_mirrors hL himport h).1
  delete _ h := (remoteDelete_mirrors hL himport h).1
  diff := remoteDiff_spec _ _
  boundaries _ _ h := remoteDiff_boundaries h

/-- **An import leaves the rope with the document's text.** On a buffer that is writable, of an
    update the library takes: the three paths agree, and none is returned exactly where the text
    did not change. -/
theorem applyRemoteCrdtOp_mirrors (hL : L.Laws) {b : Buffer L} {d d' : L.Doc} {op : Bytes}
    {deltas : List (List TextDelta)} (hwritable : b.readOnly = false)
    (hidle : b.editingInProgress = false) (hcrdt : b.crdt = some d)
    (hrope : b.bytes = Utf8.encode (L.text d))
    (himport : L.importUpdates op d = .ok deltas d') (views : List (View (Buffer L))) :
    PathsAgree d d' deltas ∧ ∃ out, b.applyRemoteCrdtOp views op = some out ∧
      out.buffer.crdt = some d' ∧ out.buffer.bytes = Utf8.encode (L.text d') ∧
      (out.result = .ok none ↔ L.text d' = L.text d) := by
  have hdeltas := hL.import_ok _ _ _ _ himport
  refine ⟨pathsAgree hL hdeltas, ?_⟩
  have hcaptured : Crdt.capture (Crdt.importUpdatesWithTextDeltas op) d =
      .ok (deltas.filter fun delta => !delta.isEmpty, L.captured d d') d' := by
    rw [Crdt.capture, Crdt.importUpdatesWithTextDeltas, himport]
  refine applyRemoteCrdtOp_imported hL hwritable hidle hcrdt hrope hcaptured ?_ views
  rw [applyDeltas_filter]
  exact hdeltas

/-! ## A library that imports -/

end Buffer

namespace Plain

def importText (bytes : List UInt8) : EStateM (LoroError Unit) Doc (List (List TextDelta)) :=
  fun d =>
    match Utf8.fromUtf8 bytes with
    | some s => .ok [[.insert s false]] { d with log := (0, s ++ d.text) :: d.log }
    | none => .error (.other ()) d

end Plain

def Loro.importing : Loro := { Loro.plain with importUpdates := Plain.importText }

theorem Loro.evolves_plain {d d' : importing.Doc} (h : importing.Evolves d d') :
    plain.Evolves d d' := by
  induction h with
  | refl => exact .refl
  | insert i s _ ih => exact .insert i s ih
  | delete i n _ ih => exact .delete i n ih
  | applyDelta delta _ ih => exact .applyDelta delta ih
  | applyDiff diff _ ih => exact @Evolves.applyDiff plain d _ diff ih
  | commit _ ih => exact .commit ih
  | commitWith _ ih => exact .commitWith ih
  | exportUpdates v _ ih => exact .exportUpdates v ih
  | undoInternal span against _ ih => exact @Evolves.undoInternal plain d _ span against ih

theorem Loro.importing_laws : importing.Laws :=
  { plain_laws with
    import_ok := fun bytes d deltas d' h => by
      replace h : Plain.importText bytes d = .ok deltas d' := h; unfold Plain.importText at h
      split at h
      · cases h; exact congrArg some (by simp [importing, plain, Plain.Doc.text])
      · cases h
    import_error := fun bytes d e d' h => by
      replace h : Plain.importText bytes d = .error e d' := h; unfold Plain.importText at h
      split at h
      · cases h
      · cases h; rfl
    local_count := fun d d' peer h => plain_laws.local_count d d' peer (evolves_plain h)
    count_mono := fun d d' peer h => plain_laws.count_mono d d' peer (evolves_plain h)
    diff_evolves := fun d d' a b diff h =>
      plain_laws.diff_evolves d d' a b diff (evolves_plain h)
    getChange_evolves := fun d d' id c hpending h =>
      plain_laws.getChange_evolves d d' id c hpending (evolves_plain h)
    settled := fun d d' h => plain_laws.settled d d' (evolves_plain h) }

namespace Buffer

/-- Another peer's insertion into "ab", as one insertion is reported. -/
theorem applyRemoteCrdtOp_mirrors_insert :
    ∃ out, ({ fromBytes .importing 0 "" [0x61, 0x62] with
        crdt := some ⟨1, [(2, ['a', 'b'])], 2⟩ } : Buffer .importing).applyRemoteCrdtOp []
          [0x78] = some out ∧ out.buffer.bytes = [0x78, 0x61, 0x62] := by
  have hrope : ({ fromBytes .importing 0 "" [0x61, 0x62] with
      crdt := some ⟨1, [(2, ['a', 'b'])], 2⟩ } : Buffer .importing).bytes =
        Utf8.encode ['a', 'b'] := by decide +kernel
  obtain ⟨-, out, hout, -, hbytes, -⟩ := applyRemoteCrdtOp_mirrors Loro.importing_laws
    (b := { fromBytes .importing 0 "" [0x61, 0x62] with crdt := some ⟨1, [(2, ['a', 'b'])], 2⟩ })
    rfl rfl rfl hrope (show Loro.importing.importUpdates [0x78] _ = .ok _ _ from rfl) []
  exact ⟨out, hout, hbytes.trans (by decide +kernel)⟩

end Buffer

end Pmacs
