/-
  The wire between a frontend and its instance (pmacs-protocol's transport.rs): each message
  behind the length of its encoding.

  * `Postcard`: the encoding of a message, which a library does;
  * `Arrival`: what one `read` of the stream meets; `readExactOrEof` takes as many as it needs;
  * `messages_arrive`: what is written is read, however its bytes arrive.
-/
import Pmacs.Rope.Tree

namespace Pmacs.Transport

open List

def maxFrameBytes : ℕ := 16 * 1024 * 1024

/-- The encoding: what is written is read back. -/
structure Postcard (M E : Type) where
  toAllocvec : M → Except E Bytes
  fromBytes : Bytes → Except E M
  round : ∀ {m bs}, toAllocvec m = .ok bs → fromBytes bs = .ok m

inductive TransportError (E : Type) where
  | io (e : String)
  | encode (e : E)
  | decode (e : E)
  | frameTooLarge (len : ℕ)
  | eof

/-- What a `read` meets: bytes that are there, a signal, or a failure.  Where no byte is there,
    and past the last arrival, the peer is gone. -/
inductive Arrival where
  | bytes (bs : Bytes)
  | interrupted
  | failed (e : String)

variable {M E : Type}

/-- The next bytes, as many as are asked for, and what is still to come. -/
def readExactOrEof : List Arrival → ℕ → Except (TransportError E) Bytes × List Arrival
  | arrivals, 0 => (.ok [], arrivals)
  | [], _ + 1 => (.error .eof, [])
  | .interrupted :: arrivals, n + 1 => readExactOrEof arrivals (n + 1)
  | .failed e :: arrivals, _ + 1 => (.error (.io e), arrivals)
  | .bytes bs :: arrivals, n + 1 =>
    if bs.length = 0 then (.error .eof, arrivals)
    else if n + 1 < bs.length then (.ok (bs.take (n + 1)), .bytes (bs.drop (n + 1)) :: arrivals)
    else
      let read := readExactOrEof arrivals (n + 1 - bs.length)
      (read.1.map (bs ++ ·), read.2)

/-- `u32::to_be_bytes`. -/
def toBeBytes (n : ℕ) : Bytes :=
  [.ofNat (n / 2 ^ 24), .ofNat (n / 2 ^ 16), .ofNat (n / 2 ^ 8), .ofNat n]

def fromBeBytes (bs : Bytes) : ℕ := bs.foldl (fun n b => 256 * n + b.toNat) 0

variable (p : Postcard M E)

def readMessage (arrivals : List Arrival) : Except (TransportError E) M × List Arrival :=
  match readExactOrEof arrivals 4 with
  | (.error e, arrivals) => (.error e, arrivals)
  | (.ok lenBuf, arrivals) =>
    let len := fromBeBytes lenBuf
    if len > maxFrameBytes then (.error (.frameTooLarge len), arrivals)
    else
      match readExactOrEof arrivals len with
      | (.error e, arrivals) => (.error e, arrivals)
      | (.ok buf, arrivals) => ((p.fromBytes buf).mapError .decode, arrivals)

def writeMessage (msg : M) : Except (TransportError E) Bytes :=
  match p.toAllocvec msg with
  | .error e => .error (.encode e)
  | .ok payload =>
    if payload.length > maxFrameBytes then .error (.frameTooLarge payload.length)
    else .ok (toBeBytes payload.length ++ payload)

def readMessages : ℕ → List Arrival → Except (TransportError E) (List M) × List Arrival
  | 0, arrivals => (.ok [], arrivals)
  | n + 1, arrivals =>
    match readMessage p arrivals with
    | (.error e, arrivals) => (.error e, arrivals)
    | (.ok msg, arrivals) =>
      let read := readMessages n arrivals
      (read.1.map (msg :: ·), read.2)

/-! ## What arrives -/

/-- A stream that brings these bytes and does not fail before it ends. -/
inductive Brings : List Arrival → Bytes → Prop
  | nil : Brings [] []
  | interrupted {arrivals bs} : Brings arrivals bs → Brings (.interrupted :: arrivals) bs
  | bytes {arrivals bs chunk} : chunk ≠ [] → Brings arrivals bs →
      Brings (.bytes chunk :: arrivals) (chunk ++ bs)

variable {arrivals : List Arrival} {bs : Bytes}

theorem readExactOrEof_spec (h : Brings arrivals bs) (n : ℕ) : ∃ arrivals',
    (n ≤ bs.length → Brings arrivals' (bs.drop n) ∧
      readExactOrEof (E := E) arrivals n = (.ok (bs.take n), arrivals')) ∧
    (bs.length < n → readExactOrEof (E := E) arrivals n = (.error .eof, arrivals')) := by
  induction h generalizing n with
  | nil =>
    cases n with
    | zero => exact ⟨[], fun _ => ⟨.nil, rfl⟩, nofun⟩
    | succ n => exact ⟨[], nofun, fun _ => rfl⟩
  | interrupted h ih =>
    cases n with
    | zero => exact ⟨_, fun _ => ⟨h.interrupted, rfl⟩, nofun⟩
    | succ n => exact ih (n + 1)
  | @bytes arrivals bs chunk hne h ih =>
    cases n with
    | zero => exact ⟨_, fun _ => ⟨h.bytes hne, rfl⟩, nofun⟩
    | succ n =>
      rw [readExactOrEof, if_neg (by simpa using hne), length_append]
      split
      · rename_i hlt
        rw [take_append_of_le_length hlt.le, drop_append_of_le_length hlt.le]
        exact ⟨_, fun _ => ⟨h.bytes (by simpa using hlt), rfl⟩, fun _ => by omega⟩
      · obtain ⟨arrivals', hok, heof⟩ := ih (n + 1 - chunk.length)
        refine ⟨arrivals', fun hle => ?_, fun hlt => by rw [heof (by omega)]; rfl⟩
        obtain ⟨hbrings, hread⟩ := hok (by omega)
        rw [drop_append, drop_eq_nil_of_le (by omega), take_append, take_of_length_le (by omega)]
        exact ⟨hbrings, by rw [hread]; rfl⟩

theorem fromBeBytes_toBeBytes {n : ℕ} (h : n < 2 ^ 32) : fromBeBytes (toBeBytes n) = n := by
  simp [fromBeBytes, toBeBytes]; omega

variable {msg : M} {frame rest : Bytes}

/-- A message that came whole is read; of one that is cut off, the end of the stream. -/
theorem readMessage_write (hw : writeMessage p msg = .ok frame) :
    (Brings arrivals (frame ++ rest) → ∃ arrivals', Brings arrivals' rest ∧
      readMessage p arrivals = (.ok msg, arrivals')) ∧
    ∀ k < frame.length, Brings arrivals (frame.take k) →
      (readMessage p arrivals).1 = .error .eof := by
  unfold writeMessage at hw
  split at hw
  · cases hw
  rename_i payload hpayload
  split at hw
  · cases hw
  rename_i hmax
  cases hw
  have hlen : fromBeBytes (toBeBytes payload.length) = payload.length :=
    fromBeBytes_toBeBytes (by unfold maxFrameBytes at hmax; omega)
  have hfour : (toBeBytes payload.length).length = 4 := rfl
  generalize toBeBytes payload.length = header at hlen hfour ⊢
  constructor
  · intro h; rw [append_assoc] at h
    obtain ⟨arrivals₁, hok, -⟩ := readExactOrEof_spec (E := E) h 4
    obtain ⟨h₁, hread⟩ := hok (by simp [hfour])
    rw [drop_left' hfour] at h₁; rw [take_left' hfour] at hread
    obtain ⟨arrivals₂, hok, -⟩ := readExactOrEof_spec (E := E) h₁ payload.length
    obtain ⟨h₂, hread'⟩ := hok (by simp)
    rw [drop_left] at h₂; rw [take_left] at hread'
    exact ⟨arrivals₂, h₂, by simp [readMessage, hread, hlen, hmax, hread', p.round hpayload]; rfl⟩
  · intro k hk h
    obtain ⟨arrivals₁, hok, heof⟩ := readExactOrEof_spec (E := E) h 4
    by_cases hshort : k < 4
    · rw [readMessage, heof (by rw [length_take]; omega)]
    rw [length_append] at hk
    rw [take_append, take_of_length_le (by omega)] at h hok
    obtain ⟨h₁, hread⟩ := hok (by simp [hfour])
    rw [drop_left' hfour] at h₁; rw [take_left' hfour] at hread
    obtain ⟨arrivals₂, -, heof⟩ := readExactOrEof_spec (E := E) h₁ payload.length
    simp [readMessage, hread, hlen, hmax, heof (by rw [length_take]; omega)]

/-- **The messages that came whole are read**, in their order, however their bytes arrive, and
    where the stream ends before or inside the next frame, its end is. -/
theorem messages_arrive {msgs : List M} {frames : List Bytes}
    (hms : Forall₂ (fun msg frame => writeMessage p msg = .ok frame) msgs frames)
    (hm : writeMessage p msg = .ok frame) {k : ℕ} (hk : k < frame.length)
    (h : Brings arrivals (frames.flatten ++ frame.take k)) :
    ∃ arrivals', readMessages p msgs.length arrivals = (.ok msgs, arrivals') ∧
      (readMessage p arrivals').1 = .error .eof := by
  induction hms generalizing arrivals with
  | nil => exact ⟨arrivals, rfl, (@readMessage_write _ _ p _ _ _ [] hm).2 k hk h⟩
  | cons hw hms ih =>
    rw [flatten_cons, append_assoc] at h
    obtain ⟨arrivals₁, h₁, hread⟩ := (readMessage_write p hw).1 h
    obtain ⟨arrivals', hall, hend⟩ := ih h₁
    exact ⟨arrivals', by simp [readMessages, hread, hall]; rfl, hend⟩

/-- A byte is a message. -/
def onlyByte : Postcard UInt8 Unit where
  toAllocvec b := .ok [b]
  fromBytes bs := match bs with
    | [b] => .ok b
    | _ => .error ()
  round h := by cases h; rfl

theorem messages_arrive_split : ∃ arrivals', readMessages onlyByte 1
      [.bytes [0, 0], .interrupted, .bytes [0, 1, 7, 0]] = (.ok [7], arrivals') ∧
    (readMessage onlyByte arrivals').1 = .error .eof :=
  have hnine : writeMessage onlyByte 9 = .ok [0, 0, 0, 1, 9] := rfl
  messages_arrive onlyByte (.cons rfl .nil) hnine (k := 1) (by decide)
    (.bytes (by simp) (.interrupted (.bytes (by simp) .nil)))

end Pmacs.Transport
