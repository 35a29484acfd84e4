import MlsRs.Codec.Integer
import Mathlib.Data.List.Forall2

/-!
# Length-prefixed vectors of the `tls` module

`tls/vector.rs` serializes a slice of elements as a fixed-width length prefix of
type `I` (one of `u8`, `u16`, `u32`, `u64`) counting the *bytes* of the
elements, followed by the elements as the element codec `S` writes them.  The
decoder reads the prefix and then runs `while read_len < len`, adding each
decoded element's `serialized_len` to `read_len`.

An element codec is the triple of `Sizer`, `Serializer` and `Deserializer`
impls.  Serialization returns the count the impl reports with the bytes it
writes.  A decoder that loops may not terminate, so deserializers take a bound
on loop iterations: `none` is a run that has not finished within it.

Lengths are unbounded numbers.  A `usize` holds the length of anything in
memory, so serialization loses nothing by it; the decoder's two steps that
depend on the target's `usize` are left out and named at `tlsDeserialize`.
-/

namespace MlsRs.Codec.Tls

variable {T : Type}

/-- `tls_codec::Error`, with the errors of codecs outside this repository kept by
an opaque code. -/
inductive Error where
  | endOfStream
  | invalidVectorLength
  | other (code : Nat)
  deriving DecidableEq, Repr

/-- The `Sizer`, `Serializer` and `Deserializer` impls of one element type. -/
structure Codec (T : Type) where
  serializedLen : T → Nat
  serialize : T → Except Error (Nat × Bytes)
  deserialize : Nat → Bytes → Option (Except Error (T × Bytes))

/-- The laws an element codec is asked to satisfy: a successful `serialize`
writes exactly `serialized_len` bytes, at least one, and reports that count;
and `deserialize`, given enough iterations, reads the value back from those
bytes and leaves whatever follows them. -/
structure Codec.Lawful (codec : Codec T) : Prop where
  serialize_ok : ∀ {value count bytes}, codec.serialize value = .ok (count, bytes) →
    count = codec.serializedLen value ∧ bytes.length = count ∧ 0 < count
  deserialize_serialize : ∀ {value count bytes}, codec.serialize value = .ok (count, bytes) →
    ∃ enough, ∀ fuel, enough ≤ fuel → ∀ rest,
      codec.deserialize fuel (bytes ++ rest) = some (.ok (value, rest))

/-- A `tls_codec` integer as an element codec: its big-endian bytes. -/
def Codec.uint (width : IntWidth) : Codec (BitVec width.bits) where
  serializedLen _ := width.size
  serialize value := .ok (width.size, toBeBytes width.size value.toNat)
  deserialize _ input :=
    match readBytes width.size input with
    | some (bytes, rest) => some (.ok (BitVec.ofNat width.bits (fromBeBytes bytes), rest))
    | none => some (.error .endOfStream)

theorem Codec.uint_lawful (width : IntWidth) : (Codec.uint width).Lawful where
  serialize_ok := by
    rintro value count bytes ⟨⟩
    exact ⟨rfl, length_toBeBytes _ _, width.size_pos⟩
  deserialize_serialize := by
    rintro value count bytes ⟨⟩
    refine ⟨0, fun _ _ rest => ?_⟩
    have read := readBytes_append (toBeBytes width.size value.toNat) rest
    have bound : value.toNat < 256 ^ width.size := width.two_pow_bits ▸ value.isLt
    rw [length_toBeBytes] at read
    simp only [Codec.uint, read, fromBeBytes_toBeBytes_of_lt bound, BitVec.ofNat_toNat,
      BitVec.setWidth_eq]

/-! ## `Vector<I, S>` -/

/-- `Vector::tls_serialized_len`: the prefix and the elements. -/
def tlsSerializedLen (width : IntWidth) (codec : Codec T) (items : List T) : Nat :=
  width.size + (items.map codec.serializedLen).sum

/-- The closure `|acc, x| Ok(acc + S::serialize(x, writer)?)` of `tls_serialize`,
with the bytes written so far. -/
def serializeStep (codec : Codec T) (state : Nat × Bytes) (value : T) :
    Except Error (Nat × Bytes) := do
  let (count, bytes) ← codec.serialize value
  pure (state.1 + count, state.2 ++ bytes)

/-- `Vector::tls_serialize`: `I::try_from` of the element bytes, the prefix,
then the elements. -/
def tlsSerialize (width : IntWidth) (codec : Codec T) (items : List T) :
    Except Error (Nat × Bytes) :=
  let len := tlsSerializedLen width codec items - width.size
  if width.max < len then .error .invalidVectorLength
  else items.foldlM (serializeStep codec) (width.size, toBeBytes width.size len)

/-- The loop `while read_len < len` of `tls_deserialize`, for at most `rounds`
more iterations; each element is decoded with `fuel`. -/
def readItems (codec : Codec T) (len fuel : Nat) :
    (rounds readLen : Nat) → List T → Bytes → Option (Except Error (List T × Bytes))
  | 0, readLen, items, input => if readLen < len then none else some (.ok (items, input))
  | rounds + 1, readLen, items, input =>
      if readLen < len then
        match codec.deserialize fuel input with
        | none => none
        | some (.error e) => some (.error e)
        | some (.ok (item, rest)) =>
            readItems codec len fuel rounds (readLen + codec.serializedLen item) (items ++ [item])
              rest
      else some (.ok (items, input))

/-- `Vector::tls_deserialize`: read the prefix, then elements until their sizes
reach it.  Two steps are left out.  `len.try_into()` into `usize` fails, with
`InvalidVectorLength`, only for a `u64` prefix of `2^32` or more on a 32-bit
target; and `Vec::with_capacity(len)` may abort when the allocation fails.  Both
end the run, so a result of this model is the source's only for a prefix below
`2^32` and a capacity that can be allocated. -/
def tlsDeserialize (width : IntWidth) (codec : Codec T) (fuel : Nat) (input : Bytes) :
    Option (Except Error (List T × Bytes)) :=
  match readBytes width.size input with
  | none => some (.error .endOfStream)
  | some (header, rest) => readItems codec (fromBeBytes header) fuel fuel 0 [] rest

/-- `Vector<I, S>` as an element codec itself. -/
def vector (width : IntWidth) (codec : Codec T) : Codec (List T) where
  serializedLen := tlsSerializedLen width codec
  serialize := tlsSerialize width codec
  deserialize := tlsDeserialize width codec

section Laws

variable {codec : Codec T}

/-- The shape of a successful `serialize`: each element's bytes, in order. -/
def Serialized (codec : Codec T) : List T → List Bytes → Prop :=
  List.Forall₂ fun value bytes => codec.serialize value = .ok (codec.serializedLen value, bytes)

theorem serializeStep_ok {state result : Nat × Bytes} {value : T}
    (step : serializeStep codec state value = .ok result) :
    ∃ count bytes, codec.serialize value = .ok (count, bytes) ∧
      result = (state.1 + count, state.2 ++ bytes) := by
  unfold serializeStep at step
  cases h : codec.serialize value with
  | error e => simp [h, bind, Except.bind] at step
  | ok written =>
      simp only [h, bind, Except.bind, pure, Except.pure, Except.ok.injEq] at step
      exact ⟨written.1, written.2, rfl, step.symm⟩

/-- A successful fold serialized every element. -/
theorem serializable_of_foldlM :
    ∀ {items : List T} {state result : Nat × Bytes},
      items.foldlM (serializeStep codec) state = .ok result →
      ∀ value ∈ items, ∃ count bytes, codec.serialize value = .ok (count, bytes)
  | [], _, _, _ => by simp
  | head :: items, state, result, fold => by
      rw [List.foldlM_cons] at fold
      cases h : serializeStep codec state head with
      | error e => simp [h, bind, Except.bind] at fold
      | ok next =>
          simp only [h, bind, Except.bind] at fold
          obtain ⟨count, bytes, written, -⟩ := serializeStep_ok h
          rintro value (_ | ⟨_, member⟩)
          · exact ⟨count, bytes, written⟩
          · exact serializable_of_foldlM fold value member

theorem foldlM_serializeStep (lawful : codec.Lawful) :
    ∀ {items : List T}, (∀ value ∈ items, ∃ count bytes, codec.serialize value = .ok (count, bytes)) →
      ∃ chunks, Serialized codec items chunks ∧ ∀ acc written,
        items.foldlM (serializeStep codec) (acc, written) =
          .ok (acc + (items.map codec.serializedLen).sum, written ++ chunks.flatten)
  | [], _ => ⟨[], .nil, fun acc written => by simp [pure, Except.pure]⟩
  | head :: items, serializable => by
      obtain ⟨count, bytes, written⟩ := serializable head (List.mem_cons_self _ _)
      have sized := (lawful.serialize_ok written).1
      subst sized
      obtain ⟨chunks, rest, fold⟩ :=
        foldlM_serializeStep lawful fun value member =>
          serializable value (List.mem_cons_of_mem _ member)
      refine ⟨bytes :: chunks, .cons written rest, fun acc out => ?_⟩
      simp only [List.foldlM_cons, serializeStep, written, bind, Except.bind, pure, Except.pure,
        fold, List.map_cons, List.sum_cons, List.flatten_cons, Nat.add_assoc, List.append_assoc]

theorem length_flatten_of_serialized (lawful : codec.Lawful) {items : List T}
    {chunks : List Bytes} (serialized : Serialized codec items chunks) :
    chunks.flatten.length = (items.map codec.serializedLen).sum := by
  induction serialized with
  | nil => rfl
  | cons written _ ih =>
      simp [ih, (lawful.serialize_ok written).2.1]

theorem readItems_of_le {len fuel rounds readLen : Nat} {items : List T} {input : Bytes}
    (done : len ≤ readLen) :
    readItems codec len fuel rounds readLen items input = some (.ok (items, input)) := by
  cases rounds <;> simp [readItems, Nat.not_lt.mpr done]

/-- The decoder's loop reads back serialized elements, stopping exactly where
their sizes reach the prefix. -/
theorem readItems_flatten (lawful : codec.Lawful) (len : Nat) :
    ∀ {items : List T} {chunks : List Bytes}, Serialized codec items chunks →
      ∃ enough, ∀ fuel, enough ≤ fuel → ∀ rounds, items.length ≤ rounds →
        ∀ readLen acc rest, readLen + (items.map codec.serializedLen).sum = len →
          readItems codec len fuel rounds readLen acc (chunks.flatten ++ rest) =
            some (.ok (acc ++ items, rest))
  | _, _, .nil => ⟨0, fun _ _ _ _ readLen acc rest reach => by
      simp only [List.map_nil, List.sum_nil, Nat.add_zero] at reach
      simpa using readItems_of_le (Nat.le_of_eq reach.symm)⟩
  | value :: items, bytes :: chunks, .cons written serialized => by
      obtain ⟨enoughHead, decodes⟩ := lawful.deserialize_serialize written
      obtain ⟨enoughRest, ih⟩ := readItems_flatten lawful len serialized
      refine ⟨max enoughHead enoughRest, fun fuel enough rounds fits readLen acc rest reach => ?_⟩
      obtain ⟨rounds, rfl⟩ : ∃ r, rounds = r + 1 :=
        ⟨rounds - 1, by simp only [List.length_cons] at fits; omega⟩
      have positive := (lawful.serialize_ok written).2.2
      have below : readLen < len := by simp only [List.map_cons, List.sum_cons] at reach; omega
      rw [List.flatten_cons, List.append_assoc, readItems, if_pos below,
        decodes fuel (Nat.max_le.mp enough).1]
      simp only [List.map_cons, List.sum_cons] at reach
      simpa using ih fuel (Nat.max_le.mp enough).2 rounds (by simpa using fits)
        (readLen + codec.serializedLen value) (acc ++ [value]) rest (by omega)

/-- Serialization of elements that all serialize, when their sizes fit `I`. -/
theorem tlsSerialize_fits (width : IntWidth) (lawful : codec.Lawful) {items : List T}
    (serializable : ∀ value ∈ items, ∃ count bytes, codec.serialize value = .ok (count, bytes))
    (fits : (items.map codec.serializedLen).sum ≤ width.max) :
    ∃ bytes, tlsSerialize width codec items = .ok (tlsSerializedLen width codec items, bytes) ∧
      bytes.length = tlsSerializedLen width codec items ∧
      ∃ enough, ∀ fuel, enough ≤ fuel → ∀ rest,
        tlsDeserialize width codec fuel (bytes ++ rest) = some (.ok (items, rest)) := by
  obtain ⟨chunks, serialized, fold⟩ := foldlM_serializeStep lawful serializable
  obtain ⟨enough, reads⟩ := readItems_flatten lawful (items.map codec.serializedLen).sum serialized
  refine ⟨toBeBytes width.size (items.map codec.serializedLen).sum ++ chunks.flatten, ?_, ?_,
    max enough items.length, fun fuel enoughFuel rest => ?_⟩
  · simp only [tlsSerialize, tlsSerializedLen, Nat.add_sub_cancel_left, Nat.not_lt.mpr fits,
      if_false, fold]
  · simp [length_flatten_of_serialized lawful serialized, tlsSerializedLen]
  · have header := readBytes_append (toBeBytes width.size (items.map codec.serializedLen).sum)
      (chunks.flatten ++ rest)
    rw [length_toBeBytes] at header
    rw [List.append_assoc, tlsDeserialize, header]
    simpa [fromBeBytes_toBeBytes_of_lt ((width.le_max_iff_lt _).mp fits)] using
      reads fuel (Nat.max_le.mp enoughFuel).1 fuel (Nat.max_le.mp enoughFuel).2 0 [] rest
        (Nat.zero_add _)

/-- The vector codec keeps the element-codec laws.  For elements that all
serialize, `tls_serialize` fails with `InvalidVectorLength` exactly when their
sizes exceed `I`'s maximum; otherwise it writes and reports
`tls_serialized_len` bytes, from which `tls_deserialize` reads the elements back
and leaves whatever follows.  So `Vector<I, S>` is itself a lawful element
codec, and vectors nest. -/
theorem vector_preserves_codec_laws (width : IntWidth) (lawful : codec.Lawful) :
    (∀ items : List T,
      (∀ value ∈ items, ∃ count bytes, codec.serialize value = .ok (count, bytes)) →
      (tlsSerialize width codec items = .error .invalidVectorLength ↔
          width.max < (items.map codec.serializedLen).sum) ∧
        ((items.map codec.serializedLen).sum ≤ width.max → ∃ bytes,
          tlsSerialize width codec items = .ok (tlsSerializedLen width codec items, bytes) ∧
          bytes.length = tlsSerializedLen width codec items ∧
          ∃ enough, ∀ fuel, enough ≤ fuel → ∀ rest,
            tlsDeserialize width codec fuel (bytes ++ rest) = some (.ok (items, rest)))) ∧
    (vector width codec).Lawful := by
  have tooLong : ∀ items : List T, width.max < (items.map codec.serializedLen).sum →
      tlsSerialize width codec items = .error .invalidVectorLength := fun items long => by
    simp [tlsSerialize, tlsSerializedLen, long]
  refine ⟨fun items serializable => ⟨⟨fun failed => ?_, tooLong items⟩,
    tlsSerialize_fits width lawful serializable⟩, ⟨fun {items count bytes} written => ?_,
      fun {items count bytes} written => ?_⟩⟩
  · refine Nat.lt_of_not_le fun fits => ?_
    obtain ⟨_, ok, -⟩ := tlsSerialize_fits width lawful serializable fits
    simp [ok] at failed
  all_goals
    have fits : (items.map codec.serializedLen).sum ≤ width.max := Nat.le_of_not_lt fun long => by
      simp [vector, tooLong items long] at written
    have serializable : ∀ value ∈ items, ∃ count bytes, codec.serialize value = .ok (count, bytes) :=
      serializable_of_foldlM (by
        simpa [vector, tlsSerialize, tlsSerializedLen, Nat.not_lt.mpr fits] using written)
    obtain ⟨written', ok, length, decodes⟩ := tlsSerialize_fits width lawful serializable fits
    simp only [vector, ok, Except.ok.injEq, Prod.mk.injEq] at written
    obtain ⟨rfl, rfl⟩ := written
  · exact ⟨rfl, length, Nat.lt_of_lt_of_le width.size_pos (Nat.le_add_right _ _)⟩
  · exact decodes

/-- A lawful codec's encodings are prefix-free: an encoding followed by any
bytes determines the value and where the encoding ends. -/
theorem Codec.Lawful.serialize_prefix_free (lawful : codec.Lawful) {value value' : T}
    {count count' : Nat} {bytes bytes' rest rest' : Bytes}
    (written : codec.serialize value = .ok (count, bytes))
    (written' : codec.serialize value' = .ok (count', bytes'))
    (same : bytes ++ rest = bytes' ++ rest') : value = value' ∧ bytes = bytes' ∧ rest = rest' := by
  obtain ⟨enough, decodes⟩ := lawful.deserialize_serialize written
  obtain ⟨enough', decodes'⟩ := lawful.deserialize_serialize written'
  have both := decodes (max enough enough') (Nat.le_max_left _ _) rest
  rw [same, decodes' (max enough enough') (Nat.le_max_right _ _) rest'] at both
  simp only [Option.some.injEq, Except.ok.injEq, Prod.mk.injEq] at both
  obtain ⟨rfl, rfl⟩ := both
  exact ⟨rfl, List.append_cancel_right same, rfl⟩

/-- Vectors of vectors of `u16` round-trip. -/
theorem vector_vector_uint16_lawful : (vector .u16 (vector .u8 (Codec.uint .u16))).Lawful :=
  (vector_preserves_codec_laws .u16 (vector_preserves_codec_laws .u8 (Codec.uint_lawful .u16)).2).2

end Laws

/-- The loop `while read_len < len` accepts a last element that runs past the
declared length: with a one-byte `u8` prefix declaring one byte of `u16`
elements, the decoder reads the two bytes of an element, consuming three bytes
where the prefix promised two, and re-encoding what it read declares a length
of two. -/
theorem tlsDeserialize_overruns_declared_length :
    tlsDeserialize .u8 (Codec.uint .u16) 1 [1, 0, 5] = some (.ok ([5#16], [])) ∧
      tlsSerialize .u8 (Codec.uint .u16) [5#16] = .ok (3, [2, 0, 5]) := by
  constructor <;> rfl

/-! ## Decoding any input

The laws above start from an encoding.  Here the decoder runs on arbitrary
bytes, with an element decoder that consumes what `serialized_len` announces
(`ConsumesSerializedLen`) or, more strongly, only accepts what the serializer
writes (`Canonical`). -/

/-- Decoding an element consumes `serialized_len` of it. -/
def Codec.ConsumesSerializedLen (codec : Codec T) : Prop :=
  ∀ {fuel input item rest}, codec.deserialize fuel input = some (.ok (item, rest)) →
    ∃ chunk, input = chunk ++ rest ∧ chunk.length = codec.serializedLen item

/-- Whatever the element decoder reads, the serializer writes back. -/
def Codec.Canonical (codec : Codec T) : Prop :=
  ∀ {fuel input item rest}, codec.deserialize fuel input = some (.ok (item, rest)) →
    ∃ chunk, input = chunk ++ rest ∧ codec.serialize item = .ok (codec.serializedLen item, chunk)

section Decoding

variable {codec : Codec T}

theorem Codec.Canonical.consumes (lawful : codec.Lawful) (canonical : codec.Canonical) :
    codec.ConsumesSerializedLen := fun decoded =>
  let ⟨chunk, split, written⟩ := canonical decoded
  ⟨chunk, split, (lawful.serialize_ok written).2.1⟩

theorem Codec.uint_canonical (width : IntWidth) : (Codec.uint width).Canonical := by
  intro fuel input item rest decoded
  simp only [Codec.uint] at decoded
  split at decoded
  · rename_i bytes after read
    obtain ⟨rfl, length⟩ := readBytes_some read
    cases decoded
    exact ⟨bytes, rfl, by simp only [Codec.uint, toBeBytes_ofNat_fromBeBytes length]⟩
  · cases decoded

/-- One run of the loop `while read_len < len`: the elements it decodes, each
with the bytes it consumed, every one started below `len`, and the sizes
reach `len` when it stops. -/
theorem readItems_ok {R : T → Bytes → Prop}
    (step : ∀ {fuel input item rest}, codec.deserialize fuel input = some (.ok (item, rest)) →
      ∃ chunk, input = chunk ++ rest ∧ R item chunk) {len fuel : Nat} :
    ∀ {rounds readLen : Nat} {acc items : List T} {input rest : Bytes},
      readItems codec len fuel rounds readLen acc input = some (.ok (items, rest)) →
      ∃ decoded chunks, items = acc ++ decoded ∧ input = chunks.flatten ++ rest ∧
        List.Forall₂ R decoded chunks ∧
        (∀ k < decoded.length, readLen + ((decoded.take k).map codec.serializedLen).sum < len) ∧
        len ≤ readLen + (decoded.map codec.serializedLen).sum := by
  intro rounds
  induction rounds with
  | zero =>
      intro readLen acc items input rest run
      simp only [readItems] at run
      split_ifs at run with below
      cases run
      exact ⟨[], [], by simp, rfl, .nil, by simp, by simpa using below⟩
  | succ rounds ih =>
      intro readLen acc items input rest run
      simp only [readItems] at run
      split_ifs at run with below
      · split at run
        · cases run
        · cases run
        · rename_i item after decoded
          obtain ⟨chunk, rfl, related⟩ := step decoded
          obtain ⟨later, chunks, rfl, rfl, relatedLater, started, reached⟩ := ih run
          refine ⟨item :: later, chunk :: chunks, by simp, by simp, .cons related relatedLater,
            fun k inRange => ?_, by simp only [List.map_cons, List.sum_cons]; omega⟩
          cases k with
          | zero => simpa using below
          | succ k =>
              have next := started k (by simpa using inRange)
              simp only [List.take_succ_cons, List.map_cons, List.sum_cons]
              omega
      · cases run
        exact ⟨[], [], by simp, rfl, .nil, by simp, by simpa using below⟩

/-- A successful `tls_deserialize`: the prefix it read, then each element with
the bytes it consumed, under the loop's entry and exit conditions. -/
theorem tlsDeserialize_ok {R : T → Bytes → Prop}
    (step : ∀ {fuel input item rest}, codec.deserialize fuel input = some (.ok (item, rest)) →
      ∃ chunk, input = chunk ++ rest ∧ R item chunk)
    {width : IntWidth} {fuel : Nat} {input rest : Bytes} {items : List T}
    (decoded : tlsDeserialize width codec fuel input = some (.ok (items, rest))) :
    ∃ header chunks, input = header ++ chunks.flatten ++ rest ∧ header.length = width.size ∧
      List.Forall₂ R items chunks ∧
      (∀ k < items.length, ((items.take k).map codec.serializedLen).sum < fromBeBytes header) ∧
      fromBeBytes header ≤ (items.map codec.serializedLen).sum := by
  unfold tlsDeserialize at decoded
  split at decoded
  · cases decoded
  · rename_i header after read
    obtain ⟨rfl, length⟩ := readBytes_some read
    obtain ⟨items, chunks, rfl, rfl, related, started, reached⟩ := readItems_ok step decoded
    exact ⟨header, chunks, by simp, length, related, by simpa using started, by simpa using reached⟩

theorem length_flatten_of_forall₂ {items : List T} {chunks : List Bytes}
    (sized : List.Forall₂ (fun item chunk => chunk.length = codec.serializedLen item) items chunks) :
    chunks.flatten.length = (items.map codec.serializedLen).sum := by
  induction sized with
  | nil => rfl
  | cons sizedHead _ ih => simp [sizedHead, ih]

/-- `tls_deserialize` never stops before the declared length and never reads
past it by a whole element: on every input it accepts, every element it
decodes starts before the declared end, and the elements' bytes reach that
end.  Only the last element can run past it. -/
theorem tlsDeserialize_stops_within_last_element (consumes : codec.ConsumesSerializedLen)
    {width : IntWidth} {fuel : Nat} {input rest : Bytes} {items : List T}
    (decoded : tlsDeserialize width codec fuel input = some (.ok (items, rest))) :
    ∃ header body, input = header ++ body ++ rest ∧ header.length = width.size ∧
      body.length = (items.map codec.serializedLen).sum ∧
      (∀ k < items.length, ((items.take k).map codec.serializedLen).sum < fromBeBytes header) ∧
      fromBeBytes header ≤ body.length := by
  obtain ⟨header, chunks, split, length, sized, started, reached⟩ := tlsDeserialize_ok consumes decoded
  have body := length_flatten_of_forall₂ sized
  exact ⟨header, chunks.flatten, split, length, body, started, body ▸ reached⟩

theorem uint16_vector_stops_within_last_element :
    ∃ header body, [1, 0, 5] = header ++ body ++ [] ∧ header.length = IntWidth.u8.size ∧
      body.length = ([5#16].map (Codec.uint .u16).serializedLen).sum ∧
      (∀ k < [5#16].length,
        (([5#16].take k).map (Codec.uint .u16).serializedLen).sum < fromBeBytes header) ∧
      fromBeBytes header ≤ body.length :=
  tlsDeserialize_stops_within_last_element
    (Codec.Canonical.consumes (Codec.uint_lawful .u16) (Codec.uint_canonical .u16))
    (show tlsDeserialize .u8 (Codec.uint .u16) 1 [1, 0, 5] = some (.ok ([5#16], [])) from rfl)

theorem foldlM_serializeStep_of_serialized {items : List T} {chunks : List Bytes}
    (serialized : Serialized codec items chunks) (acc : Nat) (written : Bytes) :
    items.foldlM (serializeStep codec) (acc, written) =
      .ok (acc + (items.map codec.serializedLen).sum, written ++ chunks.flatten) := by
  induction serialized generalizing acc written with
  | nil => simp [pure, Except.pure]
  | cons head _ ih =>
      simp only [List.foldlM_cons, serializeStep, head, bind, Except.bind, pure, Except.pure, ih,
        List.map_cons, List.sum_cons, List.flatten_cons, Nat.add_assoc, List.append_assoc]

/-- With a canonical element codec, re-encoding what `tls_deserialize` read
gives back exactly the bytes it consumed if and only if the elements end on
the declared length: the round trip fails precisely on the inputs whose last
element runs past it. -/
theorem tlsSerialize_reencodes_iff_exact (lawful : codec.Lawful) (canonical : codec.Canonical)
    {width : IntWidth} {fuel : Nat} {input rest : Bytes} {items : List T}
    (decoded : tlsDeserialize width codec fuel input = some (.ok (items, rest))) :
    ∃ header body, input = header ++ body ++ rest ∧ header.length = width.size ∧
      (tlsSerialize width codec items = .ok ((header ++ body).length, header ++ body) ↔
        body.length = fromBeBytes header) := by
  obtain ⟨header, chunks, split, length, serialized, -, -⟩ := tlsDeserialize_ok canonical decoded
  have sized : chunks.flatten.length = (items.map codec.serializedLen).sum :=
    length_flatten_of_serialized lawful serialized
  have written : ∀ fits : (items.map codec.serializedLen).sum ≤ width.max,
      tlsSerialize width codec items = .ok (width.size + (items.map codec.serializedLen).sum,
        toBeBytes width.size (items.map codec.serializedLen).sum ++ chunks.flatten) := fun fits => by
    simp only [tlsSerialize, tlsSerializedLen, Nat.add_sub_cancel_left, Nat.not_lt.mpr fits,
      if_false, foldlM_serializeStep_of_serialized serialized, List.nil_append]
  refine ⟨header, chunks.flatten, split, length, ⟨fun reencoded => ?_, fun exact => ?_⟩⟩
  · have fits : (items.map codec.serializedLen).sum ≤ width.max := Nat.le_of_not_lt fun long => by
      simp [tlsSerialize, tlsSerializedLen, long] at reencoded
    rw [written fits, Except.ok.injEq, Prod.mk.injEq] at reencoded
    have sameHeader := List.append_inj_left reencoded.2 (by rw [length_toBeBytes, length])
    rw [← sameHeader, fromBeBytes_toBeBytes_of_lt ((width.le_max_iff_lt _).mp fits), sized]
  · have below : (items.map codec.serializedLen).sum < 256 ^ width.size := by
      rw [← sized, exact, ← length]
      exact fromBeBytes_lt header
    have sameHeader : toBeBytes width.size (items.map codec.serializedLen).sum = header := by
      rw [← sized, exact, ← length, toBeBytes_fromBeBytes]
    rw [written ((width.le_max_iff_lt _).mpr below), sameHeader, List.length_append, length, sized]

theorem uint16_vector_overrun_not_reencoded :
    ∃ header body, [1, 0, 5] = header ++ body ++ [] ∧ header.length = IntWidth.u8.size ∧
      (tlsSerialize .u8 (Codec.uint .u16) [5#16] = .ok ((header ++ body).length, header ++ body) ↔
        body.length = fromBeBytes header) :=
  tlsSerialize_reencodes_iff_exact (Codec.uint_lawful .u16) (Codec.uint_canonical .u16)
    (show tlsDeserialize .u8 (Codec.uint .u16) 1 [1, 0, 5] = some (.ok ([5#16], [])) from rfl)

end Decoding

/-! ## Termination of the decoding loop

`while read_len < len` ends only through `read_len`, which grows by each decoded
element's `serialized_len`: elements of positive size end the loop within `len`
rounds, and an element of size zero that consumes nothing keeps it running. -/

section Termination

variable {codec : Codec T} {len fuel : Nat}

/-- A lawful element codec that reads only encodings decodes elements of
positive size. -/
theorem Codec.Canonical.positive (lawful : codec.Lawful) (canonical : codec.Canonical)
    {input item rest} (decoded : codec.deserialize fuel input = some (.ok (item, rest))) :
    0 < codec.serializedLen item :=
  let ⟨_, _, written⟩ := canonical decoded
  (lawful.serialize_ok written).2.2

theorem readItems_ne_none (terminates : ∀ input, codec.deserialize fuel input ≠ none)
    (positive : ∀ {input item rest}, codec.deserialize fuel input = some (.ok (item, rest)) →
      0 < codec.serializedLen item) :
    ∀ {rounds readLen : Nat} {items : List T} {input : Bytes}, len ≤ readLen + rounds →
      readItems codec len fuel rounds readLen items input ≠ none := by
  intro rounds
  induction rounds with
  | zero =>
      intro readLen items input enough
      rw [Nat.add_zero] at enough
      simp [readItems, Nat.not_lt.mpr enough]
  | succ rounds ih =>
      intro readLen items input enough
      rw [readItems]
      split_ifs with below
      · split
        next decoded => exact absurd decoded (terminates input)
        next => simp
        next item rest decoded => exact ih (by have := positive decoded; omega)
      · simp

theorem readItems_eq_none_of_empty {item : T} {input : Bytes}
    (stuck : codec.deserialize fuel input = some (.ok (item, input)))
    (empty : codec.serializedLen item = 0) :
    ∀ {rounds readLen : Nat} {items : List T}, readLen < len →
      readItems codec len fuel rounds readLen items input = none := by
  intro rounds
  induction rounds with
  | zero => intro readLen items below; simp [readItems, below]
  | succ rounds ih =>
      intro readLen items below
      rw [readItems, if_pos below, stuck]
      simp only [empty, Nat.add_zero]
      exact ih below

/-- `tls_deserialize` finishes on every input when the element decoder
finishes and every element it decodes has a positive size: the loop then ends
within `len` rounds, and `len` is at most `I`'s maximum. -/
theorem tlsDeserialize_terminates (width : IntWidth)
    (terminates : ∀ input, codec.deserialize fuel input ≠ none)
    (positive : ∀ {input item rest}, codec.deserialize fuel input = some (.ok (item, rest)) →
      0 < codec.serializedLen item)
    (enough : width.max ≤ fuel) (input : Bytes) : tlsDeserialize width codec fuel input ≠ none := by
  unfold tlsDeserialize
  split
  · simp
  · rename_i header rest read
    have declared : fromBeBytes header ≤ width.max :=
      (width.le_max_iff_lt _).mpr ((readBytes_some read).2 ▸ fromBeBytes_lt header)
    exact readItems_ne_none terminates positive (by omega)

theorem uint16_vector_decoder_terminates : tlsDeserialize .u8 (Codec.uint .u16) 255 [3, 0] ≠ none :=
  tlsDeserialize_terminates .u8 (fun input => by simp only [Codec.uint]; split <;> simp)
    (Codec.Canonical.positive (Codec.uint_lawful .u16) (Codec.uint_canonical .u16)) (by decide)
    [3, 0]

/-- An element codec whose elements take no bytes. -/
def Codec.empty : Codec Unit where
  serializedLen _ := 0
  serialize _ := .ok (0, [])
  deserialize _ input := some (.ok ((), input))

end Termination

end MlsRs.Codec.Tls
