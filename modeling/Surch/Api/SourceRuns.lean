import Surch.Api.SourceStore

/-! Source stores that share a block cache: whatever is written, sealed, reset and read in whichever
order, each document is read back as it was written. -/
namespace Surch.Api

section Runs

/- The stores read by one thread, and how many epochs have been drawn. -/
structure SourceStores where
  stores : List SourceStore
  cache : Option CachedSourceBlock
  epochs : Nat

namespace SourceStores

def empty : SourceStores := ⟨[], none, 0⟩

def nextEpoch (world : SourceStores) : Nat := world.epochs % 2 ^ 64

end SourceStores

inductive SourceAction where
  | create
  | store (i : Nat) (serialized : List UInt8) (mode : SourceWriteMode)
  | flush (i : Nat)
  | reset (i : Nat) (truncates : Bool)
  | read (i offset length codec : Nat)

/- What was written since its store was last reset: the store, what the write returned, and the
bytes. -/
abbrev Journal := List (Nat × SourceBlob × List UInt8)

/- One action; none is a panic. An action on a store that does not exist does nothing. -/
def sourceStep (zstd : Zstd) (world : SourceStores) (journal : Journal) :
    SourceAction → Option (SourceStores × Journal)
  | .create =>
    some ({ world with
      stores := world.stores ++ [.default world.nextEpoch]
      epochs := world.epochs + 1 }, journal)
  | .store i serialized mode =>
    match world.stores[i]? with
    | none => some (world, journal)
    | some store => do
      let (blob, store) ← storeSourceBytes zstd store serialized mode
      return ({ world with stores := world.stores.set i store }, journal ++ [(i, blob, serialized)])
  | .flush i =>
    match world.stores[i]? with
    | none => some (world, journal)
    | some store => do
      let store ← store.flushPendingBlock zstd
      return ({ world with stores := world.stores.set i store }, journal)
  | .reset i truncates =>
    match world.stores[i]? with
    | none => some (world, journal)
    | some store =>
      some ({ world with
        stores := world.stores.set i (store.reset truncates world.nextEpoch)
        epochs := world.epochs + 1 }, journal.filter fun entry => entry.1 ≠ i)
  | .read i offset length codec =>
    match world.stores[i]? with
    | none => some (world, journal)
    | some store => do
      let (_, cache) ← readOnDiskBytes zstd store world.cache offset length codec
      return ({ world with cache }, journal)

def sourceRun (zstd : Zstd) (world : SourceStores) (journal : Journal) :
    List SourceAction → Option (SourceStores × Journal)
  | [] => some (world, journal)
  | action :: rest => do
    let (world, journal) ← sourceStep zstd world journal action
    sourceRun zstd world journal rest

/- A block can be sealed: its identifier and its place in the file fit the locators. -/
def SourceStore.HasRoom (store : SourceStore) : Prop :=
  store.segment.buf.length ≤ packedOffsetMax ∧ store.blocks.length ≤ sourceBlockIdMax

/- The actions the stores are meant for: documents of 1 byte to 4 MiB - 1, reads of what was
written; blocks while there is room for them, and fewer epochs than the counter has. -/
def Admits (world : SourceStores) (journal : Journal) : SourceAction → Prop
  | .create => world.epochs < 2 ^ 64
  | .store i serialized mode =>
    0 < serialized.length ∧ serialized.length < 2 ^ 22 ∧
      (mode = .zstdBlock → ∀ store, world.stores[i]? = some store → store.HasRoom)
  | .flush i => ∀ store, world.stores[i]? = some store → store.HasRoom
  | .reset _ _ => world.epochs < 2 ^ 64
  | .read i offset length codec => ∃ bytes, (i, .onDisk offset length codec, bytes) ∈ journal

def AdmitsAll (zstd : Zstd) (world : SourceStores) (journal : Journal) : List SourceAction → Prop
  | [] => True
  | action :: rest =>
    Admits world journal action ∧
      ∀ next, sourceStep zstd world journal action = some next → AdmitsAll zstd next.1 next.2 rest

end Runs

/- The segment holds `bytes` at `offset`. -/
structure SourceSegment.Holds (segment : SourceSegment) (offset : Nat) (bytes : List UInt8) : Prop where
  below : offset + bytes.length ≤ segment.buf.length
  stored : (segment.buf.drop offset).take bytes.length = bytes

namespace SourceSegment.Holds

variable {segment : SourceSegment} {offset : Nat} {bytes : List UInt8}

theorem read (holds : segment.Holds offset bytes) : segment.read offset bytes.length = some bytes := by
  unfold SourceSegment.read
  rw [if_pos holds.below, holds.stored]

theorem append (holds : segment.Holds offset bytes) (more : List UInt8) :
    (segment.append more).2.Holds offset bytes := by
  obtain ⟨below, stored⟩ := holds
  refine ⟨?_, ?_⟩
  · simp only [SourceSegment.append, List.length_append]
    omega
  · have inside : offset ≤ segment.buf.length := by omega
    simp only [SourceSegment.append]
    rw [List.drop_append_of_le_length inside,
      List.take_append_of_le_length (by rw [List.length_drop]; omega), stored]

theorem appended (segment : SourceSegment) (bytes : List UInt8) :
    (segment.append bytes).2.Holds segment.buf.length bytes := by
  refine ⟨?_, ?_⟩
  · simp [SourceSegment.append]
  · simp [SourceSegment.append]

end SourceSegment.Holds

def SourceStore.Sealed (zstd : Zstd) (store : SourceStore) (blockId : Nat) (raw : List UInt8) : Prop :=
  raw.length < 2 ^ 23 ∧ ∃ entry fileOffset, store.blocks[blockId]? = some entry ∧
    unpackBlockDirEntry entry = (fileOffset, (zstd.compress raw).length) ∧
    store.segment.Holds fileOffset (zstd.compress raw)

/- `bytes` stand in `whole` from `start` on. -/
def Within (whole : List UInt8) (start : Nat) (bytes : List UInt8) : Prop :=
  SourceStore.slice whole start bytes.length = some bytes

/- Where a store keeps the document of a blob. -/
inductive SourceStore.Keeps (zstd : Zstd) (store : SourceStore) : SourceBlob → List UInt8 → Prop
  | raw {offset : Nat} {bytes : List UInt8} (holds : store.segment.Holds offset bytes) :
    Keeps zstd store (.onDisk offset bytes.length sourceCodecRaw) bytes
  | perDoc {offset : Nat} {bytes : List UInt8} (short : bytes.length < 2 ^ 22)
    (holds : store.segment.Holds offset (zstd.compress bytes)) :
    Keeps zstd store (.onDisk offset (zstd.compress bytes).length sourceCodecZstd) bytes
  | pending {locator start : Nat} {bytes : List UInt8}
    (located : unpackBlockLocator locator = (store.blocks.length, start))
    (within : Within store.pending start bytes) :
    Keeps zstd store (.onDisk locator bytes.length sourceCodecBlock) bytes
  | block {locator blockId start : Nat} {bytes whole : List UInt8}
    (located : unpackBlockLocator locator = (blockId, start))
    (isSealed : store.Sealed zstd blockId whole) (within : Within whole start bytes) :
    Keeps zstd store (.onDisk locator bytes.length sourceCodecBlock) bytes

/- Every sealed block can be read back, and the block under construction is not full. -/
structure SourceStore.Sound (zstd : Zstd) (store : SourceStore) : Prop where
  blocks : ∀ blockId < store.blocks.length, ∃ raw, store.Sealed zstd blockId raw
  pending : store.pending.length < sourceBlockTargetBytes

def SourceStore.Caches (zstd : Zstd) (store : SourceStore) (cache : Option CachedSourceBlock) : Prop :=
  ∀ blockId bytes, cache = some (store.epoch, blockId, bytes) → store.Sealed zstd blockId bytes

section Reads

variable {zstd : Zstd} {store : SourceStore}

theorem sealedBlock_of_sealed (lossless : zstd.Lossless) {blockId : Nat} {raw : List UInt8}
    (isSealed : store.Sealed zstd blockId raw) : store.sealedBlock zstd blockId = some raw := by
  obtain ⟨short, entry, fileOffset, found, unpacked, holds⟩ := isSealed
  have decoded : zstd.decodeBlock (zstd.compress raw) = some raw := by
    refine Zstd.decodeFrom_compress lossless ?_ (by omega)
    unfold sourceBlockTargetBytes
    omega
  simp only [SourceStore.sealedBlock, found, unpacked, Option.bind_eq_bind, Option.bind_some,
    holds.read, decoded]

/-- A kept document is read back, and the cache then holds what it held or a block of the store. -/
theorem readOnDiskBytes_of_keeps (lossless : zstd.Lossless) {cache : Option CachedSourceBlock}
    (caches : store.Caches zstd cache) {offset length codec : Nat} {bytes : List UInt8}
    (keeps : store.Keeps zstd (.onDisk offset length codec) bytes) :
    ∃ cache', readOnDiskBytes zstd store cache offset length codec = some (bytes, cache') ∧
      (cache' = cache ∨ ∃ blockId raw, store.Sealed zstd blockId raw ∧
        cache' = some (store.epoch, blockId, raw)) := by
  generalize shape : SourceBlob.onDisk offset length codec = blob at keeps
  cases keeps with
  | raw holds =>
    cases shape
    refine ⟨cache, ?_, .inl rfl⟩
    simp only [readOnDiskBytes, if_true, holds.read]
    rfl
  | perDoc short holds =>
    cases shape
    refine ⟨cache, ?_, .inl rfl⟩
    have decoded : zstd.decode (zstd.compress bytes) = some bytes :=
      Zstd.decodeFrom_compress lossless (Nat.le_max_right _ _) (by omega)
    simp only [readOnDiskBytes, if_neg (by decide : ¬ sourceCodecZstd = sourceCodecRaw), if_true,
      holds.read, Option.bind_eq_bind, Option.bind_some, decoded]
    rfl
  | pending located within =>
    cases shape
    refine ⟨cache, ?_, .inl rfl⟩
    simp only [readOnDiskBytes, if_neg (by decide : ¬ sourceCodecBlock = sourceCodecRaw),
      if_neg (by decide : ¬ sourceCodecBlock = sourceCodecZstd), if_true, SourceStore.readBlockDoc,
      located, Option.bind_eq_bind]
    rw [within]
    rfl
  | @block locator blockId start _ whole located isSealed within =>
    cases shape
    have inside : blockId < store.blocks.length := by
      obtain ⟨_, entry, _, found, _⟩ := isSealed
      exact (List.getElem?_eq_some_iff.mp found).1
    have fetched := sealedBlock_of_sealed lossless isSealed
    have fetch : ∃ cache', (do
        let decoded ← store.sealedBlock zstd blockId
        let bytes ← SourceStore.slice decoded start bytes.length
        return (bytes,
          if decoded.length ≤ sourceBlockCacheMaxBytes then some (store.epoch, blockId, decoded)
          else cache) : Option (List UInt8 × Option CachedSourceBlock)) = some (bytes, cache') ∧
        (cache' = cache ∨ ∃ blockId raw, store.Sealed zstd blockId raw ∧
          cache' = some (store.epoch, blockId, raw)) := by
      simp only [fetched, Option.bind_eq_bind, Option.bind_some]
      rw [within]
      refine ⟨_, rfl, ?_⟩
      split
      · exact .inr ⟨blockId, whole, isSealed, rfl⟩
      · exact .inl rfl
    simp only [readOnDiskBytes, if_neg (by decide : ¬ sourceCodecBlock = sourceCodecRaw),
      if_neg (by decide : ¬ sourceCodecBlock = sourceCodecZstd), if_true, SourceStore.readBlockDoc,
      located, if_neg (Nat.ne_of_lt inside), if_pos inside]
    split
    · rename_i epoch cachedId cached
      split
      · rename_i hit
        obtain ⟨rfl, rfl⟩ := hit
        -- the cached bytes and the sealed block decode from the same place
        have same : whole = cached := by
          have other := sealedBlock_of_sealed lossless (caches cachedId cached rfl)
          rw [fetched] at other
          exact Option.some.inj other
        subst same
        refine ⟨_, ?_, .inl rfl⟩
        rw [within]
        rfl
      · exact fetch
    · exact fetch

end Reads

section Growth

variable {zstd : Zstd} {store next : SourceStore}

/- What writing and sealing do to a store: nothing kept is lost. -/
structure SourceStore.Grows (zstd : Zstd) (store next : SourceStore) : Prop where
  segment : ∀ offset bytes, store.segment.Holds offset bytes → next.segment.Holds offset bytes
  blocks : ∀ (blockId : Nat) entry, store.blocks[blockId]? = some entry →
    next.blocks[blockId]? = some entry
  pending : ∀ start bytes, Within store.pending start bytes →
    (next.blocks.length = store.blocks.length ∧ Within next.pending start bytes) ∨
      ∃ whole, next.Sealed zstd store.blocks.length whole ∧ Within whole start bytes
  epoch : next.epoch = store.epoch

theorem SourceStore.Sealed.grows {blockId : Nat} {raw : List UInt8}
    (isSealed : store.Sealed zstd blockId raw) (grows : store.Grows zstd next) :
    next.Sealed zstd blockId raw := by
  obtain ⟨short, entry, fileOffset, found, unpacked, holds⟩ := isSealed
  exact ⟨short, entry, fileOffset, grows.blocks _ _ found, unpacked, grows.segment _ _ holds⟩

theorem SourceStore.Keeps.grows {blob : SourceBlob} {bytes : List UInt8}
    (keeps : store.Keeps zstd blob bytes) (grows : store.Grows zstd next) :
    next.Keeps zstd blob bytes := by
  cases keeps with
  | raw holds => exact .raw (grows.segment _ _ holds)
  | perDoc short holds => exact .perDoc short (grows.segment _ _ holds)
  | pending located within =>
    rcases grows.pending _ _ within with ⟨same, still⟩ | ⟨whole, isSealed, inside⟩
    · exact .pending (by rw [located, same]) still
    · exact .block located isSealed inside
  | block located isSealed within => exact .block located (isSealed.grows grows) within

theorem SourceStore.Caches.grows {cache : Option CachedSourceBlock}
    (caches : store.Caches zstd cache) (grows : store.Grows zstd next) : next.Caches zstd cache := by
  intro blockId bytes hit
  rw [grows.epoch] at hit
  exact (caches blockId bytes hit).grows grows

theorem Within.append {whole bytes : List UInt8} {start : Nat} (within : Within whole start bytes)
    (more : List UInt8) : Within (whole ++ more) start bytes := by
  unfold Within SourceStore.slice at within ⊢
  split at within
  · rename_i inside
    rw [if_pos (by rw [List.length_append]; omega), List.drop_append_of_le_length (by omega),
      List.take_append_of_le_length (by rw [List.length_drop]; omega)]
    exact within
  · cases within

theorem within_appended (whole bytes : List UInt8) : Within (whole ++ bytes) whole.length bytes := by
  unfold Within SourceStore.slice
  rw [if_pos (by rw [List.length_append]), List.drop_left, List.take_length]

theorem grows_append (zstd : Zstd) (store : SourceStore) (more : List UInt8) :
    store.Grows zstd { store with segment := (store.segment.append more).2 } where
  segment _ _ holds := holds.append more
  blocks _ _ found := found
  pending _ _ within := .inl ⟨rfl, within⟩
  epoch := rfl

/-- Sealing: with room for it, the block under construction becomes a sealed block. -/
theorem flushPendingBlock_spec (lossless : zstd.Lossless) (room : store.HasRoom)
    (short : store.pending.length < 2 ^ 14 + 2 ^ 22)
    (blocks : ∀ blockId < store.blocks.length, ∃ raw, store.Sealed zstd blockId raw) :
    ∃ next, store.flushPendingBlock zstd = some next ∧ store.Grows zstd next ∧ next.Sound zstd := by
  unfold SourceStore.flushPendingBlock
  by_cases empty : store.pending = []
  · refine ⟨store, by rw [empty]; rfl, ⟨fun _ _ h => h, fun _ _ h => h, fun _ _ h => .inl ⟨rfl, h⟩, rfl⟩,
      blocks, ?_⟩
    rw [empty]
    decide
  · have bound := lossless.bounded store.pending
    have size : (zstd.compress store.pending).length < 2 ^ 24 := by
      refine bound.trans_lt ?_
      unfold Zstd.compressBound
      split <;> omega
    obtain ⟨entry, packed⟩ : ∃ entry, packBlockDirEntry store.segment.buf.length
        ((zstd.compress store.pending).length % 2 ^ 32) = some entry := by
      unfold packBlockDirEntry
      rw [if_pos]
      · exact ⟨_, rfl⟩
      · refine ⟨room.1, ?_⟩
        unfold blockDirClenMax
        omega
    have unpacked := unpackBlockDirEntry_of_pack packed
    rw [Nat.mod_eq_of_lt (by omega)] at unpacked
    rw [if_neg (by simpa using empty)]
    simp only [SourceSegment.append, packed, Option.bind_eq_bind, Option.bind_some]
    have grown : ∀ (blockId : Nat) e, store.blocks[blockId]? = some e →
        (store.blocks ++ [entry])[blockId]? = some e := by
      intro blockId e found
      rw [List.getElem?_append_left (List.getElem?_eq_some_iff.mp found).1]
      exact found
    have fresh : SourceStore.Sealed zstd
        { store with
          segment := (store.segment.append (zstd.compress store.pending)).2
          blocks := store.blocks ++ [entry]
          pending := [] } store.blocks.length store.pending := by
      refine ⟨by omega, entry, store.segment.buf.length, ?_, unpacked, ?_⟩
      · exact List.getElem?_concat_length
      · exact SourceSegment.Holds.appended _ _
    have grows : store.Grows zstd
        { store with
          segment := (store.segment.append (zstd.compress store.pending)).2
          blocks := store.blocks ++ [entry]
          pending := [] } := by
      refine ⟨fun _ _ holds => holds.append _, grown, ?_, rfl⟩
      intro start bytes within
      exact .inr ⟨store.pending, fresh, within⟩
    refine ⟨_, rfl, grows, ?_, ?_⟩
    · intro blockId inside
      rcases Nat.lt_succ_iff_lt_or_eq.mp (by simpa using inside) with old | rfl
      · obtain ⟨raw, isSealed⟩ := blocks blockId old
        exact ⟨raw, isSealed.grows grows⟩
      · exact ⟨store.pending, fresh⟩
    · exact (by decide : 0 < sourceBlockTargetBytes)

theorem SourceStore.Grows.trans {first second third : SourceStore} (left : first.Grows zstd second)
    (right : second.Grows zstd third) : first.Grows zstd third where
  segment _ _ holds := right.segment _ _ (left.segment _ _ holds)
  blocks _ _ found := right.blocks _ _ (left.blocks _ _ found)
  pending start bytes within := by
    rcases left.pending start bytes within with ⟨same, still⟩ | ⟨whole, isSealed, inside⟩
    · rw [← same]
      rcases right.pending start bytes still with ⟨again, last⟩ | sealedLater
      · exact .inl ⟨again, last⟩
      · exact .inr sealedLater
    · exact .inr ⟨whole, isSealed.grows right, inside⟩
  epoch := right.epoch.trans left.epoch

theorem appendBlockDoc_spec (lossless : zstd.Lossless) (sound : store.Sound zstd)
    (room : store.HasRoom) {raw : List UInt8} (short : raw.length < 2 ^ 22) :
    ∃ locator next, store.appendBlockDoc zstd raw = some (locator, next) ∧ store.Grows zstd next ∧
      next.Sound zstd ∧ next.Keeps zstd (.onDisk locator raw.length sourceCodecBlock) raw ∧
      locator ≤ packedOffsetMax := by
  have open_block := sound.pending
  unfold sourceBlockTargetBytes at open_block
  obtain ⟨locator, packed⟩ : ∃ locator, packBlockLocator store.blocks.length
      (store.pending.length % 2 ^ 32) = some locator := by
    unfold packBlockLocator
    rw [if_pos]
    · exact ⟨_, rfl⟩
    · refine ⟨room.2, ?_⟩
      unfold sourceBlockIntraMax sourceBlockIntraBits
      omega
  have located := unpackBlockLocator_of_pack packed
  have inside := packBlockLocator_le packed
  rw [Nat.mod_eq_of_lt (by omega)] at located
  have longer : store.Grows zstd { store with pending := store.pending ++ raw } :=
    ⟨fun _ _ holds => holds, fun _ _ found => found,
      fun _ _ within => .inl ⟨rfl, within.append raw⟩, rfl⟩
  have kept : SourceStore.Keeps zstd { store with pending := store.pending ++ raw }
      (.onDisk locator raw.length sourceCodecBlock) raw :=
    .pending located (within_appended _ _)
  have blocks : ∀ blockId < store.blocks.length, ∃ whole, SourceStore.Sealed zstd
      { store with pending := store.pending ++ raw } blockId whole := by
    intro blockId inside
    obtain ⟨whole, isSealed⟩ := sound.blocks blockId inside
    exact ⟨whole, isSealed.grows longer⟩
  simp only [SourceStore.appendBlockDoc, packed, Option.bind_eq_bind, Option.bind_some]
  split
  · have total : (store.pending ++ raw).length < 2 ^ 14 + 2 ^ 22 := by
      rw [List.length_append]
      omega
    obtain ⟨next, flushed, grows, sound⟩ := @flushPendingBlock_spec zstd
      { store with pending := store.pending ++ raw } lossless room total blocks
    rw [flushed]
    exact ⟨locator, next, rfl, longer.trans grows, sound, kept.grows grows, inside⟩
  · rename_i open_still
    exact ⟨locator, _, rfl, longer, ⟨blocks, by simpa using open_still⟩, kept, inside⟩

theorem SourceStore.Sound.append (sound : store.Sound zstd) (more : List UInt8) :
    SourceStore.Sound zstd { store with segment := (store.segment.append more).2 } := by
  refine ⟨?_, sound.pending⟩
  intro blockId inside
  obtain ⟨raw, isSealed⟩ := sound.blocks blockId inside
  exact ⟨raw, isSealed.grows (grows_append zstd store more)⟩

/-- Whatever the mode, a stored document is kept under the blob that is returned. -/
theorem storeSourceBytes_spec (lossless : zstd.Lossless) (sound : store.Sound zstd)
    {serialized : List UInt8} {mode : SourceWriteMode} (short : serialized.length < 2 ^ 22)
    (room : mode = .zstdBlock → store.HasRoom) :
    ∃ blob next, storeSourceBytes zstd store serialized mode = some (blob, next) ∧
      store.Grows zstd next ∧ next.Sound zstd ∧ next.Keeps zstd blob serialized := by
  cases mode with
  | raw =>
    refine ⟨_, _, rfl, grows_append zstd store serialized, sound.append serialized, ?_⟩
    have narrowed : serialized.length % 2 ^ 32 = serialized.length := Nat.mod_eq_of_lt (by omega)
    simp only [narrowed]
    exact .raw (SourceSegment.Holds.appended _ _)
  | zstdPerDoc =>
    have size : (zstd.compress serialized).length < 2 ^ 32 := by
      refine (lossless.bounded serialized).trans_lt ?_
      unfold Zstd.compressBound
      split <;> omega
    refine ⟨_, _, rfl, grows_append zstd store (zstd.compress serialized), sound.append _, ?_⟩
    simp only [Nat.mod_eq_of_lt size]
    exact .perDoc short (SourceSegment.Holds.appended _ _)
  | zstdBlock =>
    obtain ⟨locator, next, stored, grows, sound, keeps, _⟩ :=
      appendBlockDoc_spec lossless sound (room rfl) short
    refine ⟨.onDisk locator serialized.length sourceCodecBlock, next, ?_, grows, sound, keeps⟩
    have narrowed : serialized.length % 2 ^ 32 = serialized.length := Nat.mod_eq_of_lt (by omega)
    simp only [storeSourceBytes, stored, Option.bind_eq_bind, Option.bind_some, narrowed]
    rfl

end Growth

section World

variable {zstd : Zstd}

structure SoundWorld (zstd : Zstd) (world : SourceStores) (journal : Journal) : Prop where
  stores : ∀ store ∈ world.stores, store.Sound zstd
  caches : ∀ store ∈ world.stores, store.Caches zstd world.cache
  keeps : ∀ entry ∈ journal, ∃ store, world.stores[entry.1]? = some store ∧
    store.Keeps zstd entry.2.1 entry.2.2
  drawn : ∀ store ∈ world.stores, store.epoch < world.epochs
  cached : ∀ block, world.cache = some block → block.1 < world.epochs
  distinct : (world.stores.map SourceStore.epoch).Nodup

theorem SoundWorld.replace {world : SourceStores} {journal : Journal} {i : Nat}
    {store next : SourceStore} (sound : SoundWorld zstd world journal)
    (here : world.stores[i]? = some store) (grows : store.Grows zstd next)
    (fine : next.Sound zstd) :
    SoundWorld zstd { world with stores := world.stores.set i next } journal := by
  obtain ⟨inside, value⟩ := List.getElem?_eq_some_iff.mp here
  have member : store ∈ world.stores := value ▸ List.getElem_mem inside
  have either : ∀ other ∈ world.stores.set i next, other ∈ world.stores ∨ other = next :=
    fun other found => List.mem_or_eq_of_mem_set found
  have epochs : (world.stores.set i next).map SourceStore.epoch =
      world.stores.map SourceStore.epoch := by
    rw [List.map_set, grows.epoch, ← value, ← List.getElem_map SourceStore.epoch]
    · exact List.set_getElem_self _
    · rwa [List.length_map]
  refine ⟨?_, ?_, ?_, ?_, sound.cached, ?_⟩
  · intro other found
    rcases either other found with old | rfl
    · exact sound.stores other old
    · exact fine
  · intro other found
    rcases either other found with old | rfl
    · exact sound.caches other old
    · exact (sound.caches store member).grows grows
  · intro entry found
    obtain ⟨owner, at_index, keeps⟩ := sound.keeps entry found
    by_cases same : i = entry.1
    · subst same
      rw [here] at at_index
      cases at_index
      exact ⟨next, List.getElem?_set_self inside, keeps.grows grows⟩
    · exact ⟨owner, by rw [List.getElem?_set_ne same]; exact at_index, keeps⟩
  · intro other found
    rcases either other found with old | rfl
    · exact sound.drawn other old
    · rw [grows.epoch]
      exact sound.drawn store member
  · rw [epochs]
    exact sound.distinct

theorem sourceStep_create {world : SourceStores} {journal : Journal}
    (sound : SoundWorld zstd world journal) (left : world.epochs < 2 ^ 64) :
    SoundWorld zstd
      { world with
        stores := world.stores ++ [.default world.nextEpoch]
        epochs := world.epochs + 1 } journal := by
  have epoch : world.nextEpoch = world.epochs := Nat.mod_eq_of_lt left
  rw [epoch]
  have either : ∀ other ∈ world.stores ++ [SourceStore.default world.epochs],
      other ∈ world.stores ∨ other = .default world.epochs := by
    intro other found
    simpa using found
  refine ⟨?_, ?_, ?_, ?_, ?_, ?_⟩
  · intro other found
    rcases either other found with old | rfl
    · exact sound.stores other old
    · exact ⟨fun _ inside => absurd inside (Nat.not_lt_zero _),
        (by decide : 0 < sourceBlockTargetBytes)⟩
  · intro other found
    rcases either other found with old | rfl
    · exact sound.caches other old
    · intro blockId bytes hit
      exact absurd (sound.cached _ hit) (lt_irrefl _)
  · intro entry found
    obtain ⟨owner, at_index, keeps⟩ := sound.keeps entry found
    refine ⟨owner, ?_, keeps⟩
    rw [List.getElem?_append_left (List.getElem?_eq_some_iff.mp at_index).1]
    exact at_index
  · intro other found
    rcases either other found with old | rfl
    · exact (sound.drawn other old).trans (Nat.lt_succ_self _)
    · exact Nat.lt_succ_self _
  · intro block hit
    exact (sound.cached block hit).trans (Nat.lt_succ_self _)
  · rw [List.map_append, List.nodup_append]
    refine ⟨sound.distinct, List.nodup_singleton _, ?_⟩
    intro old found fresh same_epoch
    obtain ⟨store, member, rfl⟩ := List.mem_map.mp found
    have : fresh = world.epochs := by simpa [SourceStore.default] using same_epoch
    have := sound.drawn store member
    omega

theorem sourceStep_reset {world : SourceStores} {journal : Journal} {i : Nat} {store : SourceStore}
    (sound : SoundWorld zstd world journal) (left : world.epochs < 2 ^ 64)
    (here : world.stores[i]? = some store) (truncates : Bool) :
    SoundWorld zstd
      { world with
        stores := world.stores.set i (store.reset truncates world.nextEpoch)
        epochs := world.epochs + 1 } (journal.filter fun entry => entry.1 ≠ i) := by
  have epoch : world.nextEpoch = world.epochs := Nat.mod_eq_of_lt left
  rw [epoch]
  have either : ∀ other ∈ world.stores.set i (store.reset truncates world.epochs),
      other ∈ world.stores ∨ other = store.reset truncates world.epochs :=
    fun other found => List.mem_or_eq_of_mem_set found
  refine ⟨?_, ?_, ?_, ?_, ?_, ?_⟩
  · intro other found
    rcases either other found with old | rfl
    · exact sound.stores other old
    · exact ⟨fun _ inside => absurd inside (Nat.not_lt_zero _),
        (by decide : 0 < sourceBlockTargetBytes)⟩
  · intro other found
    rcases either other found with old | rfl
    · exact sound.caches other old
    · intro blockId bytes hit
      -- an entry of the new epoch cannot have been cached before the epoch was drawn
      exact absurd (sound.cached _ hit) (lt_irrefl _)
  · intro entry found
    obtain ⟨member, other_store⟩ := List.mem_filter.mp found
    obtain ⟨owner, at_index, keeps⟩ := sound.keeps entry member
    have apart : i ≠ entry.1 := by
      rintro rfl
      simp at other_store
    refine ⟨owner, ?_, keeps⟩
    rw [List.getElem?_set_ne apart]
    exact at_index
  · intro other found
    rcases either other found with old | rfl
    · exact (sound.drawn other old).trans (Nat.lt_succ_self _)
    · exact Nat.lt_succ_self _
  · intro block hit
    exact (sound.cached block hit).trans (Nat.lt_succ_self _)
  · rw [List.map_set]
    refine List.Nodup.set sound.distinct ?_
    intro found
    obtain ⟨other, member, same⟩ := List.mem_map.mp found
    have := sound.drawn other member
    simp only [SourceStore.reset] at same
    omega

theorem sourceStep_sound (lossless : zstd.Lossless) {world : SourceStores} {journal : Journal}
    (sound : SoundWorld zstd world journal) {action : SourceAction}
    (admits : Admits world journal action) :
    ∃ next, sourceStep zstd world journal action = some next ∧ SoundWorld zstd next.1 next.2 := by
  cases action with
  | create => exact ⟨_, rfl, sourceStep_create sound admits⟩
  | store i serialized mode =>
    obtain ⟨_, short, room⟩ := admits
    simp only [sourceStep]
    split
    · exact ⟨_, rfl, sound⟩
    · rename_i store here
      have member := List.mem_of_getElem? here
      obtain ⟨blob, next, stored, grows, fine, keeps⟩ := storeSourceBytes_spec lossless
        (sound.stores store member) short fun block => room block store here
      rw [stored]
      have replaced := sound.replace here grows fine
      refine ⟨_, rfl, replaced.stores, replaced.caches, ?_, replaced.drawn, replaced.cached,
        replaced.distinct⟩
      intro entry found
      rcases List.mem_append.mp found with old | fresh
      · exact replaced.keeps entry old
      · rw [List.mem_singleton] at fresh
        subst fresh
        exact ⟨next, List.getElem?_set_self (List.getElem?_eq_some_iff.mp here).1, keeps⟩
  | flush i =>
    simp only [sourceStep]
    split
    · exact ⟨_, rfl, sound⟩
    · rename_i store here
      have fine := sound.stores store (List.mem_of_getElem? here)
      have short := fine.pending
      unfold sourceBlockTargetBytes at short
      obtain ⟨next, flushed, grows, fine⟩ := flushPendingBlock_spec lossless (admits store here)
        (by omega) fine.blocks
      rw [flushed]
      exact ⟨_, rfl, sound.replace here grows fine⟩
  | reset i truncates =>
    simp only [sourceStep]
    split
    · exact ⟨_, rfl, sound⟩
    · rename_i store here
      exact ⟨_, rfl, sourceStep_reset sound admits here truncates⟩
  | read i offset length codec =>
    obtain ⟨bytes, written⟩ := admits
    obtain ⟨store, here, keeps⟩ := sound.keeps _ written
    have member := List.mem_of_getElem? here
    obtain ⟨cache, answered, origin⟩ :=
      readOnDiskBytes_of_keeps lossless (sound.caches store member) keeps
    simp only [sourceStep, here, answered, Option.bind_eq_bind, Option.bind_some]
    refine ⟨_, rfl, ?_⟩
    rcases origin with rfl | ⟨blockId, raw, isSealed, rfl⟩
    · exact sound
    · refine ⟨sound.stores, ?_, sound.keeps, sound.drawn, ?_, sound.distinct⟩
      · -- no other store has the epoch of the block that was just cached
        intro other found otherId otherBytes hit
        obtain ⟨same_epoch, rfl, rfl⟩ : store.epoch = other.epoch ∧ blockId = otherId ∧
            raw = otherBytes := by simpa using hit
        have same : other = store :=
          List.inj_on_of_nodup_map sound.distinct found member same_epoch.symm
        rwa [same]
      · intro block hit
        cases hit
        exact sound.drawn store member

theorem sourceRun_sound (lossless : zstd.Lossless) (actions : List SourceAction)
    {world : SourceStores} {journal : Journal} (sound : SoundWorld zstd world journal)
    (admits : AdmitsAll zstd world journal actions) :
    ∃ next, sourceRun zstd world journal actions = some next ∧ SoundWorld zstd next.1 next.2 := by
  induction actions generalizing world journal with
  | nil => exact ⟨_, rfl, sound⟩
  | cons action rest ih =>
    obtain ⟨next, stepped, fine⟩ := sourceStep_sound lossless sound admits.1
    rw [sourceRun, stepped]
    exact ih fine (admits.2 next stepped)

/-- Documents are read back as they were written, from any state of any run: no assertion fails,
no block under construction is full, and the cached block is one of the store with its epoch. -/
theorem stored_documents_read_back (zstd : Zstd) (lossless : zstd.Lossless)
    (actions : List SourceAction) (admitted : AdmitsAll zstd .empty [] actions) :
    ∃ world journal, sourceRun zstd .empty [] actions = some (world, journal) ∧
      (∀ i blob bytes, (i, blob, bytes) ∈ journal → ∃ store offset length codec cache,
        world.stores[i]? = some store ∧ blob = .onDisk offset length codec ∧
          readOnDiskBytes zstd store world.cache offset length codec = some (bytes, cache)) ∧
      (∀ store ∈ world.stores, store.pending.length < 2 ^ sourceBlockIntraBits) ∧
      (∀ store ∈ world.stores, ∀ blockId bytes, world.cache = some (store.epoch, blockId, bytes) →
        store.sealedBlock zstd blockId = some bytes) ∧
      (world.stores.map SourceStore.epoch).Nodup := by
  have start : SoundWorld zstd .empty [] := by
    refine ⟨?_, ?_, ?_, ?_, ?_, List.nodup_nil⟩
    · intro store found
      cases found
    · intro store found
      cases found
    · intro entry found
      cases found
    · intro store found
      cases found
    · intro block hit
      cases hit
  obtain ⟨⟨world, journal⟩, finished, sound⟩ := sourceRun_sound lossless actions start admitted
  refine ⟨world, journal, finished, ?_, ?_, ?_, sound.distinct⟩
  · intro i blob bytes written
    obtain ⟨store, here, keeps⟩ := sound.keeps _ written
    have caches := sound.caches store (List.mem_of_getElem? here)
    cases blob with
    | onDisk offset length codec =>
      obtain ⟨cache, answered, _⟩ := readOnDiskBytes_of_keeps lossless caches keeps
      exact ⟨store, offset, length, codec, cache, here, rfl, answered⟩
    | compressed bytes => cases keeps
  · intro store member
    exact (sound.stores store member).pending
  · intro store member blockId bytes hit
    exact sealedBlock_of_sealed lossless (sound.caches store member blockId bytes hit)

end World

section Sample

/- A zstd frame with one raw block, as zstd writes it for a few incompressible bytes: magic number,
single-segment header with the content size, header of the last block. -/
def storedFrame : Zstd where
  compress raw := [0x28, 0xb5, 0x2f, 0xfd, 0x20, UInt8.ofNat raw.length,
    UInt8.ofNat (raw.length * 8 + 1), UInt8.ofNat (raw.length / 32), UInt8.ofNat (raw.length / 8192)] ++
    raw
  decompress frame capacity := if frame.length ≤ capacity + 9 then some (frame.drop 9) else none

theorem storedFrame_lossless : storedFrame.Lossless where
  round_trip raw capacity := by
    simp only [storedFrame, List.length_append, List.length_cons, List.length_nil]
    by_cases fits : raw.length ≤ capacity
    · rw [if_pos (by omega), if_pos fits]
      rfl
    · rw [if_neg (by omega), if_neg fits]
  bounded raw := by
    simp only [storedFrame, List.length_append, List.length_cons, List.length_nil]
    unfold Zstd.compressBound
    split <;> omega
  framed raw := by simp [storedFrame]

theorem admitsAll_cons {zstd : Zstd} {world : SourceStores} {journal : Journal}
    {action : SourceAction} {rest : List SourceAction} {next : SourceStores × Journal}
    (admits : Admits world journal action) (stepped : sourceStep zstd world journal action = some next)
    (later : AdmitsAll zstd next.1 next.2 rest) : AdmitsAll zstd world journal (action :: rest) := by
  refine ⟨admits, ?_⟩
  intro other also
  rw [stepped] at also
  cases also
  exact later

def sampleActions : List SourceAction :=
  [.create, .store 0 [0x7b, 0x7d] .raw, .store 0 [0x7b, 0x7d] .zstdPerDoc,
    .store 0 [0x7b, 0x7d] .zstdBlock, .read 0 0 2 2, .flush 0, .read 0 0 2 2]

theorem stored_documents_read_back_three_modes :
    AdmitsAll storedFrame .empty [] sampleActions ∧
      ∃ world journal, sourceRun storedFrame .empty [] sampleActions = some (world, journal) ∧
        journal.length = 3 := by
  have room : ∀ store : SourceStore, store.segment.buf.length ≤ 64 → store.blocks.length ≤ 1 →
      store.HasRoom := by
    intro store short few
    unfold SourceStore.HasRoom packedOffsetMax packedOffsetBits sourceBlockIdMax packedOffsetBits
      sourceBlockIntraBits
    omega
  have admitted : AdmitsAll storedFrame .empty [] sampleActions := by
    refine admitsAll_cons (by decide : 0 < 2 ^ 64) rfl ?_
    refine admitsAll_cons ⟨by decide, by decide, fun block => by cases block⟩ rfl ?_
    refine admitsAll_cons ⟨by decide, by decide, fun block => by cases block⟩ rfl ?_
    refine admitsAll_cons ⟨by decide, by decide, ?_⟩ rfl ?_
    · rintro - store here
      cases here
      exact room _ (by decide) (by decide)
    refine admitsAll_cons ⟨[0x7b, 0x7d], by decide⟩ rfl ?_
    refine admitsAll_cons ?_ rfl ?_
    · intro store here
      cases here
      exact room _ (by decide) (by decide)
    refine admitsAll_cons ⟨[0x7b, 0x7d], by decide⟩ rfl trivial
  obtain ⟨world, journal, finished, _⟩ :=
    stored_documents_read_back storedFrame storedFrame_lossless sampleActions admitted
  refine ⟨admitted, world, journal, finished, ?_⟩
  have evaluated : (sourceRun storedFrame .empty [] sampleActions).map (fun next => next.2.length) =
      some 3 := by decide +kernel
  rw [finished] at evaluated
  exact Option.some.inj evaluated

end Sample

section Limits

theorem sourceRun_append (zstd : Zstd) (world : SourceStores) (journal : Journal)
    (first second : List SourceAction) :
    sourceRun zstd world journal (first ++ second) =
      (sourceRun zstd world journal first).bind fun next => sourceRun zstd next.1 next.2 second := by
  induction first generalizing world journal with
  | nil => rfl
  | cons action rest ih =>
    rw [List.cons_append, sourceRun, sourceRun]
    cases sourceStep zstd world journal action with
    | none => rfl
    | some next => exact ih next.1 next.2

theorem sourceRun_raw (zstd : Zstd) (bytes : List UInt8) (n : Nat) (world : SourceStores)
    (journal : Journal) {store : SourceStore} (only : world.stores = [store]) :
    ∃ world' journal' store', sourceRun zstd world journal
        (List.replicate n (.store 0 bytes .raw)) = some (world', journal') ∧
      world'.stores = [store'] ∧ store'.blocks = store.blocks ∧ store'.pending = store.pending ∧
      store'.segment.buf.length = store.segment.buf.length + n * bytes.length := by
  induction n generalizing world journal store with
  | zero => exact ⟨world, journal, store, rfl, only, rfl, rfl, by omega⟩
  | succ n ih =>
    have stepped : sourceStep zstd world journal (.store 0 bytes .raw) = some
        ({ world with stores := [{ store with segment := (store.segment.append bytes).2 }] },
          journal ++ [(0, .onDisk store.segment.buf.length (bytes.length % 2 ^ 32) sourceCodecRaw,
            bytes)]) := by
      simp only [sourceStep, only]
      rfl
    rw [List.replicate_succ, sourceRun, stepped]
    obtain ⟨world', journal', store', finished, stores, blocks, pending, size⟩ := ih
      { world with stores := [{ store with segment := (store.segment.append bytes).2 }] }
      (journal ++ [(0, .onDisk store.segment.buf.length (bytes.length % 2 ^ 32) sourceCodecRaw,
        bytes)]) rfl
    refine ⟨world', journal', store', finished, stores, blocks, pending, ?_⟩
    rw [size]
    simp only [SourceSegment.append, List.length_append]
    rw [Nat.succ_mul]
    omega

theorem sourceRun_resets (zstd : Zstd) (n : Nat) (world : SourceStores) (journal : Journal)
    {store : SourceStore} (only : world.stores = [store]) :
    ∃ journal', sourceRun zstd world journal (List.replicate (n + 1) (.reset 0 true)) =
      some (⟨[.default ((world.epochs + n) % 2 ^ 64)], world.cache, world.epochs + n + 1⟩, journal') := by
  have stepped : sourceStep zstd world journal (.reset 0 true) = some
      (⟨[.default world.nextEpoch], world.cache, world.epochs + 1⟩,
        journal.filter fun entry => entry.1 ≠ 0) := by
    simp only [sourceStep, only]
    rfl
  induction n generalizing world journal store with
  | zero => exact ⟨_, by rw [List.replicate_succ, sourceRun, stepped]; rfl⟩
  | succ n ih =>
    rw [List.replicate_succ, sourceRun, stepped]
    obtain ⟨journal', finished⟩ := ih ⟨[.default world.nextEpoch], world.cache, world.epochs + 1⟩
      (journal.filter fun entry => entry.1 ≠ 0) rfl rfl
    refine ⟨journal', ?_⟩
    have shifted : world.epochs + (n + 1) = world.epochs + 1 + n := by omega
    rw [shifted]
    exact finished

/-- Once the file is past the offsets a directory entry can hold, sealing a block panics. -/
theorem sourceRun_wide (n : Nat) (bytes : List UInt8) (wide : packedOffsetMax < n * bytes.length) :
    sourceRun storedFrame .empty []
      (.create :: List.replicate n (.store 0 bytes .raw) ++ [.store 0 [0] .zstdBlock, .flush 0]) =
        none := by
  have created : sourceStep storedFrame .empty [] .create = some (⟨[.default 0], none, 1⟩, []) := by
    rfl
  obtain ⟨world, journal, ⟨segment, blockList, open_block, epoch⟩, finished, stores, blocks, pending,
    size⟩ := sourceRun_raw storedFrame bytes n ⟨[.default 0], none, 1⟩ [] rfl
  obtain rfl : blockList = [] := blocks
  obtain rfl : open_block = [] := pending
  have grown : segment.buf.length = 0 + n * bytes.length := size
  have beyond : ¬ segment.buf.length ≤ packedOffsetMax := by omega
  have located : packBlockLocator 0 0 = some 0 := by decide
  have opened : sourceStep storedFrame world journal (.store 0 [0] .zstdBlock) =
      some ({ world with stores := [⟨segment, [], [0], epoch⟩] },
        journal ++ [(0, .onDisk 0 1 sourceCodecBlock, [0])]) := by
    simp only [sourceStep, stores, List.getElem?_cons_zero, storeSourceBytes,
      SourceStore.appendBlockDoc, List.length_nil, Nat.zero_mod, located, Option.bind_eq_bind,
      Option.bind_some, List.nil_append, if_neg (by decide : ¬ [(0 : UInt8)].length ≥
      sourceBlockTargetBytes)]
    rfl
  have refused : SourceStore.flushPendingBlock storedFrame ⟨segment, [], [0], epoch⟩ = none := by
    simp only [SourceStore.flushPendingBlock, SourceSegment.append, packBlockDirEntry, beyond,
      false_and, if_false]
    rfl
  rw [List.cons_append, sourceRun, created]
  simp only [Option.bind_eq_bind, Option.bind_some]
  rw [sourceRun_append, finished, Option.bind_some, sourceRun, opened]
  simp only [Option.bind_eq_bind, Option.bind_some]
  rw [sourceRun]
  simp only [sourceStep, List.getElem?_cons_zero, refused]
  rfl

/-- When the epochs have gone round, a block from before the resets is served for a new one. -/
theorem sourceRun_worn (n : Nat) (round : (1 + n) % 2 ^ 64 = 0) :
    ∃ world journal store cache, sourceRun storedFrame .empty []
        ([.create, .store 0 [1] .zstdBlock, .flush 0, .read 0 0 1 2] ++
          List.replicate (n + 1) (.reset 0 true) ++ [.store 0 [2] .zstdBlock, .flush 0]) =
        some (world, journal) ∧
      (0, .onDisk 0 1 sourceCodecBlock, [2]) ∈ journal ∧ world.stores[0]? = some store ∧
      readOnDiskBytes storedFrame store world.cache 0 1 sourceCodecBlock = some ([1], cache) := by
  have cached : sourceRun storedFrame .empty []
      [.create, .store 0 [1] .zstdBlock, .flush 0, .read 0 0 1 2] =
      some (⟨[⟨⟨storedFrame.compress [1]⟩, [10 * 2 ^ 40], [], 0⟩], some (0, 0, [1]), 1⟩,
        [(0, .onDisk 0 1 sourceCodecBlock, [1])]) := by rfl
  obtain ⟨journal, worn⟩ := sourceRun_resets storedFrame n
    ⟨[⟨⟨storedFrame.compress [1]⟩, [10 * 2 ^ 40], [], 0⟩], some (0, 0, [1]), 1⟩
    [(0, .onDisk 0 1 sourceCodecBlock, [1])] rfl
  rw [round] at worn
  refine ⟨⟨[⟨⟨storedFrame.compress [2]⟩, [10 * 2 ^ 40], [], 0⟩], some (0, 0, [1]), 1 + n + 1⟩,
    journal ++ [(0, .onDisk 0 1 sourceCodecBlock, [2])], _, some (0, 0, [1]), ?_, ?_, rfl, rfl⟩
  · rw [sourceRun_append, sourceRun_append, cached, Option.bind_some, worn, Option.bind_some]
    rfl
  · exact List.mem_append_right _ List.mem_cons_self

/- Documents just below 4 MiB, until the file is past 1 TiB, then a block to seal. -/
def wideActions : List SourceAction :=
  .create :: List.replicate (2 ^ 18 + 1) (.store 0 (List.replicate (2 ^ 22 - 1) 0) .raw) ++
    [.store 0 [0] .zstdBlock, .flush 0]

def wornActions : List SourceAction :=
  [.create, .store 0 [1] .zstdBlock, .flush 0, .read 0 0 1 2] ++
    List.replicate (2 ^ 64 - 1 + 1) (.reset 0 true) ++ [.store 0 [2] .zstdBlock, .flush 0]

/-- Past 1 TiB the seal assertion fails, and a counter of epochs that has gone round lets the cache
serve a block from before a reset. -/
theorem stored_documents_lost_past_limits :
    sourceRun storedFrame .empty [] wideActions = none ∧
      ∃ world journal store cache, sourceRun storedFrame .empty [] wornActions = some (world, journal) ∧
        (0, .onDisk 0 1 sourceCodecBlock, [2]) ∈ journal ∧ world.stores[0]? = some store ∧
        readOnDiskBytes storedFrame store world.cache 0 1 sourceCodecBlock = some ([1], cache) := by
  constructor
  · refine sourceRun_wide _ _ ?_
    rw [List.length_replicate]
    decide
  · exact sourceRun_worn (2 ^ 64 - 1) (by decide)

end Limits

end Surch.Api
