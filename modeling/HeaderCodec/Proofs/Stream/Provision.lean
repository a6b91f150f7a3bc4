import HeaderCodec.Proofs.Stream.Frame
import HeaderCodec.Stream.Provision

/-! The readers of a dump examine its header at different points, but all take off a stream what the
header announces, which `nextDump` says once, and accept there what is accepted as bytes. -/

namespace HeaderCodec

namespace Codec

theorem DumpHeader.ofBytes_take (bytes : Bytes) :
    ofBytes (bytes.take Limits.dumpHeaderSize) = ofBytes bytes := by
  have front : (bytes.take Limits.dumpHeaderSize).take 2 = bytes.take 2 := by
    rw [List.take_take]
    rfl
  have back : ((bytes.take Limits.dumpHeaderSize).drop 2).take 4 = (bytes.drop 2).take 4 := by
    rw [List.drop_take, List.take_take]
    rfl
  rw [ofBytes, ofBytes, front, back]

theorem DumpHeader.ofBytes_append {opening : Bytes}
    (opened : opening.length = Limits.dumpHeaderSize) (rest : Bytes) :
    ofBytes (opening ++ rest) = ofBytes opening := by
  rw [← ofBytes_take, List.take_left' opened]

theorem DumpHeader.checkEntriesLength_of_check {header : DumpHeader}
    (checked : header.check = .ok ()) : header.checkEntriesLength = .ok () :=
  if_pos (DumpHeader.check_eq_ok_iff.mp checked).2

section

variable {codec after : Codec} {opening entries : Bytes}

theorem load_append (opened : opening.length = Limits.dumpHeaderSize)
    (announced : entries.length = (DumpHeader.ofBytes opening).entriesLength) :
    codec.load (opening ++ entries) = ((DumpHeader.ofBytes opening).check >>= fun _ =>
      codec.loadEntries (DumpHeader.ofBytes opening).maxFrameSize entries) := by
  rw [load, List.take_left' opened, List.drop_left' opened, if_neg (Nat.not_lt.mpr opened.ge)]
  simp only [announced, ne_eq, not_true_eq_false, if_false]

theorem pieces_of_load {bytes : Bytes} (loaded : codec.load bytes = .ok after) :
    ∃ opening entries, bytes = opening ++ entries ∧ opening.length = Limits.dumpHeaderSize ∧
      entries.length = (DumpHeader.ofBytes opening).entriesLength ∧
      (DumpHeader.ofBytes opening).check = .ok () := by
  unfold load at loaded
  dsimp only at loaded
  split at loaded
  · cases loaded
  next whole =>
  obtain ⟨_, checked, loaded⟩ := Outcome.bind_eq_ok_iff.mp loaded
  split at loaded
  · cases loaded
  next announced =>
  rw [ne_eq, not_not] at announced
  have width := List.length_take_le Limits.dumpHeaderSize bytes
  exact ⟨_, _, (List.take_append_drop _ _).symm, by omega, announced.symm, checked⟩

end

end Codec

namespace ByteQueue

open Codec (DumpHeader)

/-- The header and the entries of the next dump. The header is checked before the entries are
read, as far as `check` goes. -/
def nextDump (queue : ByteQueue) (transport : Transport)
    (check : DumpHeader → Except CodecError Unit) : Except CodecError (Bytes × Bytes) × ByteQueue :=
  match queue.readOver transport Limits.dumpHeaderSize with
  | (.error cause, queue) => (.error (.io cause), queue)
  | (.ok opening, queue) =>
    match check (DumpHeader.ofBytes opening) with
    | .error cause => (.error cause, queue)
    | .ok () =>
      match queue.readOver transport (DumpHeader.ofBytes opening).entriesLength with
      | (.error cause, queue) => (.error (.io cause), queue)
      | (.ok entries, queue) => (.ok (opening, entries), queue)

variable {queue after : ByteQueue} {transport : Transport}
  {check : DumpHeader → Except CodecError Unit} {opening entries : Bytes}

theorem nextDump_eq_ok_iff :
    queue.nextDump transport check = (.ok (opening, entries), after) ↔
      opening.length = Limits.dumpHeaderSize ∧ check (DumpHeader.ofBytes opening) = .ok () ∧
        entries.length = (DumpHeader.ofBytes opening).entriesLength ∧
        queue.unread = opening ++ entries ++ after.unread ∧ after.capacity = queue.capacity := by
  constructor
  · intro taken
    unfold nextDump at taken
    split at taken
    · cases taken
    next opening middle opened =>
    split at taken
    · cases taken
    next checked =>
    split at taken
    · cases taken
    next filled =>
    cases taken
    obtain ⟨width, front, room⟩ := readOver_eq_ok_iff.mp opened
    obtain ⟨announced, back, room'⟩ := readOver_eq_ok_iff.mp filled
    refine ⟨width, checked, announced, ?_, room'.trans room⟩
    rw [front, back, List.append_assoc]
  · rintro ⟨width, checked, announced, unread, room⟩
    have opened : queue.readOver transport Limits.dumpHeaderSize =
        (.ok opening, ⟨entries ++ after.unread, queue.capacity⟩) := by
      refine readOver_eq_ok_iff.mpr ⟨width, ?_, rfl⟩
      rw [unread, List.append_assoc]
    have filled : readOver transport ⟨entries ++ after.unread, queue.capacity⟩
        (DumpHeader.ofBytes opening).entriesLength = (.ok entries, after) :=
      readOver_eq_ok_iff.mpr ⟨announced, rfl, room⟩
    simp only [nextDump, opened, checked, filled]

theorem nextDump_over {check' : DumpHeader → Except CodecError Unit}
    (agree : check (DumpHeader.ofBytes queue.unread) = .ok ())
    (agree' : check' (DumpHeader.ofBytes queue.unread) = .ok ()) (transport' : Transport) :
    queue.nextDump transport' check' =
      ((queue.nextDump transport check).1.mapError (CodecError.over transport'),
        (queue.nextDump transport check).2) := by
  unfold nextDump
  simp only [readOver_eq]
  cases opened : queue.read Limits.dumpHeaderSize with
  | mk opening middle =>
  cases opening with
  | error fault => rfl
  | ok opening =>
  obtain ⟨width, unread, -⟩ := read_eq_ok_iff.mp opened
  rw [unread, DumpHeader.ofBytes_append width] at agree agree'
  simp only [Except.mapError, agree, agree']
  cases middle.read (DumpHeader.ofBytes opening).entriesLength with
  | mk entries rest => cases entries <;> rfl

end ByteQueue

namespace Codec

variable {codec after : Codec} {queue rest : ByteQueue}

theorem loadFrom_eq (codec : Codec) (queue : ByteQueue) :
    codec.loadFrom queue =
      ((queue.nextDump .blocking DumpHeader.check).1 >>= fun (opening, entries) =>
          codec.loadEntries (DumpHeader.ofBytes opening).maxFrameSize entries,
        (queue.nextDump .blocking DumpHeader.check).2) := by
  unfold loadFrom ByteQueue.nextDump
  cases queue.readOver .blocking Limits.dumpHeaderSize with
  | mk opening queue =>
  cases opening with
  | error cause => rfl
  | ok opening =>
  dsimp only
  cases (DumpHeader.ofBytes opening).check with
  | error cause => rfl
  | ok done =>
  dsimp only
  cases queue.readOver .blocking (DumpHeader.ofBytes opening).entriesLength with
  | mk entries queue => cases entries <;> rfl

theorem receiveDump_eq (codec : Codec) (queue : ByteQueue) :
    codec.receiveDump queue =
      ((queue.nextDump .asynchronous DumpHeader.checkEntriesLength).1 >>= fun (opening, entries) =>
          codec.load (opening ++ entries),
        (queue.nextDump .asynchronous DumpHeader.checkEntriesLength).2) := by
  unfold receiveDump ByteQueue.nextDump
  cases queue.readOver .asynchronous Limits.dumpHeaderSize with
  | mk opening queue =>
  cases opening with
  | error cause => rfl
  | ok opening =>
  dsimp only
  cases (DumpHeader.ofBytes opening).checkEntriesLength with
  | error cause => rfl
  | ok done =>
  dsimp only
  cases queue.readOver .asynchronous (DumpHeader.ofBytes opening).entriesLength with
  | mk entries queue => cases entries <;> rfl

/-- The stream begins with a dump that the codec accepts, and goes on with the rest. -/
def AcceptsFront (codec after : Codec) (queue rest : ByteQueue) : Prop :=
  ∃ dump, dump.length = Limits.dumpHeaderSize + (DumpHeader.ofBytes queue.unread).entriesLength ∧
    queue.unread = dump ++ rest.unread ∧ rest.capacity = queue.capacity ∧
    codec.load dump = .ok after

theorem acceptsFront_iff {check : DumpHeader → Except CodecError Unit}
    (passes : ∀ header, header.check = .ok () → check header = .ok ()) (transport : Transport) :
    codec.AcceptsFront after queue rest ↔
      ∃ opening entries, queue.nextDump transport check = (.ok (opening, entries), rest) ∧
        codec.load (opening ++ entries) = .ok after := by
  constructor
  · rintro ⟨dump, -, unread, room, loaded⟩
    obtain ⟨opening, entries, rfl, width, announced, checked⟩ := pieces_of_load loaded
    exact ⟨opening, entries, ByteQueue.nextDump_eq_ok_iff.mpr
      ⟨width, passes _ checked, announced, unread, room⟩, loaded⟩
  · rintro ⟨opening, entries, taken, loaded⟩
    obtain ⟨width, -, announced, unread, room⟩ := ByteQueue.nextDump_eq_ok_iff.mp taken
    refine ⟨opening ++ entries, ?_, unread, room, loaded⟩
    rw [unread, List.append_assoc, DumpHeader.ofBytes_append width, List.length_append, width,
      announced]

theorem loadFrom_eq_ok_iff :
    codec.loadFrom queue = (.ok after, rest) ↔ codec.AcceptsFront after queue rest := by
  rw [loadFrom_eq, acceptsFront_iff (fun _ checked => checked) .blocking]
  simp only [Prod.mk.injEq, Outcome.bind_eq_ok_iff]
  constructor
  · rintro ⟨⟨⟨opening, entries⟩, pieces, loaded⟩, remains⟩
    have taken : queue.nextDump .blocking DumpHeader.check = (.ok (opening, entries), rest) :=
      Prod.ext pieces remains
    obtain ⟨width, checked, announced, -⟩ := ByteQueue.nextDump_eq_ok_iff.mp taken
    refine ⟨opening, entries, taken, ?_⟩
    rw [load_append width announced, checked, Outcome.ok_bind, loaded]
  · rintro ⟨opening, entries, taken, loaded⟩
    obtain ⟨width, checked, announced, -⟩ := ByteQueue.nextDump_eq_ok_iff.mp taken
    rw [load_append width announced, checked, Outcome.ok_bind] at loaded
    rw [taken]
    exact ⟨⟨_, rfl, loaded⟩, rfl⟩

theorem receiveDump_eq_ok_iff :
    codec.receiveDump queue = (.ok after, rest) ↔ codec.AcceptsFront after queue rest := by
  rw [receiveDump_eq,
    acceptsFront_iff (fun _ checked => DumpHeader.checkEntriesLength_of_check checked) .asynchronous]
  simp only [Prod.mk.injEq, Outcome.bind_eq_ok_iff]
  constructor
  · rintro ⟨⟨⟨opening, entries⟩, pieces, loaded⟩, remains⟩
    exact ⟨opening, entries, Prod.ext pieces remains, loaded⟩
  · rintro ⟨opening, entries, taken, loaded⟩
    rw [taken]
    exact ⟨⟨_, rfl, loaded⟩, rfl⟩

theorem loadEntries_over (codec : Codec) (maxFrameSize : Nat) (entries : Bytes)
    (transport : Transport) :
    (codec.loadEntries maxFrameSize entries).mapError (CodecError.over transport) =
      codec.loadEntries maxFrameSize entries := by
  unfold loadEntries
  cases readEntries codec.coder [] (.ofSection entries) with
  | error cause => rfl
  | ok fields =>
    cases checked : checkContent (.ofFields fields) <;>
      simp [checked, Except.mapError, bind, Except.bind, pure, Except.pure, CodecError.over]

theorem receiveDump_over (checked : (DumpHeader.ofBytes queue.unread).check = .ok ()) :
    codec.receiveDump queue =
      ((codec.loadFrom queue).1.mapError (CodecError.over .asynchronous),
        (codec.loadFrom queue).2) := by
  rw [receiveDump_eq, loadFrom_eq, ByteQueue.nextDump_over checked
    (DumpHeader.checkEntriesLength_of_check checked)]
  cases taken : queue.nextDump .blocking DumpHeader.check with
  | mk pieces rest =>
  cases pieces with
  | error cause => rfl
  | ok pieces =>
    obtain ⟨opening, entries⟩ := pieces
    obtain ⟨width, checked, announced, -⟩ := ByteQueue.nextDump_eq_ok_iff.mp taken
    simp only [Except.mapError, Outcome.ok_bind, load_append width announced, checked]
    exact congrArg (·, rest) (loadEntries_over _ _ _ _).symm

end Codec

namespace Endpoint

variable {endpoint after : Endpoint}

theorem adopt_eq_ok_iff {loaded : Except CodecError Codec} :
    endpoint.adopt loaded = (.ok (), after) ↔ ∃ codec, loaded = .ok codec ∧ ofCodec codec = after := by
  cases loaded <;> simp [adopt]

theorem adopt_of_error {loaded : Except CodecError Codec} {cause : CodecError}
    (failed : (endpoint.adopt loaded).1 = .error cause) : (endpoint.adopt loaded).2 = endpoint := by
  cases loaded with
  | error cause => rfl
  | ok codec => cases failed

theorem adopt_mapError (loaded : Except CodecError Codec) (transport : Transport) :
    endpoint.adopt (loaded.mapError (CodecError.over transport)) =
      ((endpoint.adopt loaded).1.mapError (CodecError.over transport),
        (endpoint.adopt loaded).2) := by
  cases loaded <;> rfl

def AcceptsFront (endpoint after : Endpoint) (queue rest : ByteQueue) : Prop :=
  ∃ dump, dump.length =
      Limits.dumpHeaderSize + (Codec.DumpHeader.ofBytes queue.unread).entriesLength ∧
    queue.unread = dump ++ rest.unread ∧ rest.capacity = queue.capacity ∧
    endpoint.load dump = (.ok (), after)

theorem acceptsFront_iff {queue rest : ByteQueue} :
    endpoint.AcceptsFront after queue rest ↔
      ∃ codec, endpoint.codec.AcceptsFront codec queue rest ∧ ofCodec codec = after := by
  simp only [AcceptsFront, Codec.AcceptsFront, load_eq, adopt_eq_ok_iff]
  constructor
  · rintro ⟨dump, length, unread, room, codec, loaded, adopted⟩
    exact ⟨codec, ⟨dump, length, unread, room, loaded⟩, adopted⟩
  · rintro ⟨codec, ⟨dump, length, unread, room, loaded⟩, adopted⟩
    exact ⟨dump, length, unread, room, codec, loaded, adopted⟩

theorem adopt_read_eq_ok_iff {rest : ByteQueue} (read : Except CodecError Codec × ByteQueue) :
    ((endpoint.adopt read.1).1, (endpoint.adopt read.1).2, read.2) = (.ok (), after, rest) ↔
      ∃ codec, read = (.ok codec, rest) ∧ ofCodec codec = after := by
  obtain ⟨loaded, queue⟩ := read
  cases loaded with
  | error cause => simp [adopt]
  | ok codec => simp [adopt, and_comm]

theorem loadFrom_eq_ok_iff {queue rest : ByteQueue} :
    endpoint.loadFrom queue = (.ok (), after, rest) ↔ endpoint.AcceptsFront after queue rest := by
  rw [loadFrom_eq, adopt_read_eq_ok_iff, acceptsFront_iff]
  simp only [Codec.loadFrom_eq_ok_iff]

theorem receiveDump_eq_ok_iff {queue rest : ByteQueue} :
    endpoint.receiveDump queue = (.ok (), after, rest) ↔
      endpoint.AcceptsFront after queue rest := by
  rw [receiveDump_eq, adopt_read_eq_ok_iff, acceptsFront_iff]
  simp only [Codec.receiveDump_eq_ok_iff]

theorem receiveDump_over {queue : ByteQueue}
    (checked : (Codec.DumpHeader.ofBytes queue.unread).check = .ok ()) :
    endpoint.receiveDump queue =
      ((endpoint.loadFrom queue).1.mapError (CodecError.over .asynchronous),
        (endpoint.loadFrom queue).2) := by
  rw [receiveDump_eq, loadFrom_eq, Codec.receiveDump_over checked, adopt_mapError]

/-- Either stream gives an endpoint a dump exactly if the endpoint accepts the bytes in front as
one, with the same outcome and nothing more read. A refused dump changes no endpoint, and behind a
good header both streams are refused alike. -/
theorem dump_receipt_agrees (endpoint : Endpoint) (queue : ByteQueue) :
    (∀ after rest, endpoint.loadFrom queue = (.ok (), after, rest) ↔
        endpoint.AcceptsFront after queue rest) ∧
      (∀ after rest, endpoint.receiveDump queue = (.ok (), after, rest) ↔
        endpoint.AcceptsFront after queue rest) ∧
      (∀ bytes cause, (endpoint.load bytes).1 = .error cause →
        (endpoint.load bytes).2 = endpoint) ∧
      (∀ cause, (endpoint.loadFrom queue).1 = .error cause →
        (endpoint.loadFrom queue).2.1 = endpoint) ∧
      (∀ cause, (endpoint.receiveDump queue).1 = .error cause →
        (endpoint.receiveDump queue).2.1 = endpoint) ∧
      ((Codec.DumpHeader.ofBytes queue.unread).check = .ok () →
        endpoint.receiveDump queue =
          ((endpoint.loadFrom queue).1.mapError (CodecError.over .asynchronous),
            (endpoint.loadFrom queue).2)) := by
  refine ⟨fun _ _ => loadFrom_eq_ok_iff, fun _ _ => receiveDump_eq_ok_iff, ?_, ?_, ?_,
    receiveDump_over⟩
  · intro bytes cause failed
    rw [load_eq] at failed ⊢
    exact adopt_of_error failed
  · intro cause failed
    rw [loadFrom_eq] at failed ⊢
    exact adopt_of_error failed
  · intro cause failed
    rw [receiveDump_eq] at failed ⊢
    exact adopt_of_error failed

def used : Endpoint := ⟨.default, [9]⟩

def namelessDump : Bytes := [0, 1, 2, 0, 0, 0, 0, 0]

theorem dump_receipt_agrees_sample :
    used.receiveDump ⟨Codec.sample.dump ++ [1, 0], none⟩ =
        (.ok (), ofCodec Codec.sample, ⟨[1, 0], none⟩) ∧
      (Codec.DumpHeader.ofBytes (namelessDump ++ [7])).check = .ok () ∧
      used.loadFrom ⟨namelessDump ++ [7], none⟩ =
        (.error (.decode (.invalidDump .emptyEntryName)), used, ⟨[7], none⟩) ∧
      used.receiveDump ⟨namelessDump ++ [7], none⟩ =
        (.error (.decode (.invalidDump .emptyEntryName)), used, ⟨[7], none⟩) := by
  have loaded : used.load Codec.sample.dump = (.ok (), ofCodec Codec.sample) := by
    cbv
  have announced : Codec.sample.dump.length = Limits.dumpHeaderSize +
      (Codec.DumpHeader.ofBytes (Codec.sample.dump ++ [1, 0])).entriesLength := by
    cbv
  have checked : (Codec.DumpHeader.ofBytes (namelessDump ++ [7])).check = .ok () := by
    cbv
  have refused : used.loadFrom ⟨namelessDump ++ [7], none⟩ =
      (.error (.decode (.invalidDump .emptyEntryName)), used, ⟨[7], none⟩) := by
    cbv
  refine ⟨?_, checked, refused, ?_⟩
  · exact ((dump_receipt_agrees _ _).2.1 _ _).mpr ⟨_, announced, rfl, rfl, loaded⟩
  · have alike := (dump_receipt_agrees used ⟨namelessDump ++ [7], none⟩).2.2.2.2.2 checked
    rw [alike, refused]
    rfl

end Endpoint

end HeaderCodec
