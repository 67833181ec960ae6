import BlockHost.Bytes

/-!
# Memory

A memory has a byte at every address and is zero until it is written. It is a tree of the bytes that
were written: the root holds the byte at address 0, one side the odd addresses and the other the even
ones, so that a byte far out costs no more than its address has digits.

What a memory is, is what it answers: `byteAt_store` gives every byte after a write, `load_store` says
that what was written is what is read, and `byteAt_copy` gives every byte after a copy.
-/

namespace BlockHost

/-- Bytes by address. -/
inductive Memory where
  /-- Zero everywhere. -/
  | blank
  /-- The byte at address 0, the bytes at odd addresses, and those at the other even addresses. -/
  | cell (first : UInt8) (odd even : Memory)
deriving Repr

namespace Memory

/-- The byte at an address. -/
def byteAt : Memory → Nat → UInt8
  | blank, _ => 0
  | cell first odd even, address =>
      if address = 0 then first
      else if address % 2 = 1 then odd.byteAt (address / 2)
      else even.byteAt (address / 2 - 1)

/-- The byte at address 0. -/
def first : Memory → UInt8
  | blank => 0
  | cell first _ _ => first

/-- The bytes at odd addresses. -/
def odd : Memory → Memory
  | blank => blank
  | cell _ odd _ => odd

/-- The bytes at even addresses above 0. -/
def even : Memory → Memory
  | blank => blank
  | cell _ _ even => even

/-- The memory with another byte at an address. -/
def set (m : Memory) (address : Nat) (byte : UInt8) : Memory :=
  if address = 0 then cell byte m.odd m.even
  else if address % 2 = 1 then cell m.first (m.odd.set (address / 2) byte) m.even
  else cell m.first m.odd (m.even.set (address / 2 - 1) byte)
termination_by address

/-- The bytes of a range. -/
def load (m : Memory) (start len : Nat) : Bytes :=
  (List.range' start len).map m.byteAt

/-- The memory with the bytes from an address on replaced. -/
def store (m : Memory) (start : Nat) : Bytes → Memory
  | [] => m
  | b :: bs => (m.set start b).store (start + 1) bs

/-- The addresses from `start` up to `stop` that were written, and perhaps others on the way there. -/
def touched : Memory → (start stop : Nat) → List Nat
  | blank, _, _ => []
  | cell _ odd even, start, stop =>
      if stop ≤ start then []
      else
        (if start = 0 then [0] else [])
          ++ (odd.touched (start / 2) (stop / 2)).map (2 * · + 1)
          ++ (even.touched ((start - 1) / 2) ((stop - 1) / 2)).map (2 * · + 2)

/-- The memory with the bytes at some addresses replaced by what `f` says. -/
def setAll (m : Memory) (f : Nat → UInt8) (addresses : List Nat) : Memory :=
  addresses.foldl (fun m address => m.set address (f address)) m

/-- The memory with `len` bytes from `dest` on replaced by those of `source` from `start` on. Only
addresses at which one of the two was written take time. -/
def copy (m : Memory) (dest : Nat) (source : Memory) (start len : Nat) : Memory :=
  m.setAll (fun address => source.byteAt (start + (address - dest)))
    (m.touched dest (dest + len)
      ++ (source.touched start (start + len)).map fun address => dest + (address - start))

/-! ## What a memory answers -/

@[simp] theorem byteAt_blank (address : Nat) : blank.byteAt address = 0 := rfl

theorem byteAt_eq (m : Memory) (address : Nat) :
    m.byteAt address =
      if address = 0 then m.first
      else if address % 2 = 1 then m.odd.byteAt (address / 2)
      else m.even.byteAt (address / 2 - 1) := by
  cases m with
  | blank => simp [first, odd, even]
  | cell f o e => rw [byteAt]; rfl

theorem byteAt_set (m : Memory) (address : Nat) (byte : UInt8) (other : Nat) :
    (m.set address byte).byteAt other = if other = address then byte else m.byteAt other := by
  induction address using Nat.strongRecOn generalizing m other with
  | _ address ih =>
      rw [set, byteAt_eq m other]
      by_cases h0 : address = 0
      · subst h0
        by_cases hz : other = 0 <;> simp [byteAt, hz]
      · by_cases hodd : address % 2 = 1
        · by_cases hz : other = 0
          · simp [h0, hodd, byteAt, hz, Ne.symm h0]
          · by_cases hat : other % 2 = 1
            · have hiff : other / 2 = address / 2 ↔ other = address := by omega
              simp [h0, hodd, byteAt, hz, hat, ih (address / 2) (by omega), hiff]
            · have : ¬ other = address := by omega
              simp [h0, hodd, byteAt, hz, hat, this]
        · by_cases hz : other = 0
          · simp [h0, hodd, byteAt, hz, Ne.symm h0]
          · by_cases hat : other % 2 = 1
            · have : ¬ other = address := by omega
              simp [h0, hodd, byteAt, hz, hat, this]
            · have hiff : other / 2 - 1 = address / 2 - 1 ↔ other = address := by omega
              simp [h0, hodd, byteAt, hz, hat, ih (address / 2 - 1) (by omega), hiff]

/-- A write changes the bytes of its range and no other. -/
theorem byteAt_store (m : Memory) (start : Nat) (bs : Bytes) (address : Nat) :
    (m.store start bs).byteAt address =
      if start ≤ address then bs.getD (address - start) (m.byteAt address)
      else m.byteAt address := by
  induction bs generalizing m start with
  | nil => simp [store]
  | cons b bs ih =>
      rw [store, ih, byteAt_set]
      by_cases h : start ≤ address
      · by_cases heq : address = start
        · have hn : ¬ start + 1 ≤ start := by omega
          simp [heq, hn]
        · have hsub : address - start = (address - (start + 1)) + 1 := by omega
          simp [h, heq, show start + 1 ≤ address by omega, hsub]
      · have hne : ¬ address = start := by omega
        simp [h, hne, show ¬ start + 1 ≤ address by omega]

@[simp] theorem length_load (m : Memory) (start len : Nat) : (m.load start len).length = len := by
  simp [load]

theorem load_store (m : Memory) (start : Nat) (bs : Bytes) :
    (m.store start bs).load start bs.length = bs := by
  apply List.ext_getElem
  · simp
  · intro i h₁ h₂
    simp [load, byteAt_store, h₂]

/-- A write leaves what lies beside it. -/
theorem load_store_of_disjoint (m : Memory) (start : Nat) (bs : Bytes) (other len : Nat)
    (h : other + len ≤ start ∨ start + bs.length ≤ other) :
    (m.store start bs).load other len = m.load other len := by
  apply List.ext_getElem
  · simp
  · intro i h₁ h₂
    simp only [length_load] at h₂
    simp only [load, List.getElem_map, List.getElem_range', byteAt_store]
    by_cases hle : start ≤ other + 1 * i
    · rw [if_pos hle]
      have hout : bs.length ≤ other + 1 * i - start := by omega
      rw [List.getD_eq_getElem?_getD, List.getElem?_eq_none hout, Option.getD_none]
    · rw [if_neg hle]

/-! ## Copies -/

theorem byteAt_setAll (m : Memory) (f : Nat → UInt8) (addresses : List Nat) (address : Nat) :
    (m.setAll f addresses).byteAt address =
      if address ∈ addresses then f address else m.byteAt address := by
  induction addresses generalizing m with
  | nil => simp [setAll]
  | cons first rest ih =>
      have hstep : m.setAll f (first :: rest) = (m.set first (f first)).setAll f rest := rfl
      rw [hstep, ih, byteAt_set]
      by_cases hrest : address ∈ rest
      · simp [hrest]
      · by_cases hfirst : address = first
        · subst hfirst
          simp [hrest]
        · simp [hrest, hfirst]

theorem mem_touched_bounds {m : Memory} {start stop address : Nat}
    (h : address ∈ m.touched start stop) : start ≤ address ∧ address < stop := by
  induction m generalizing start stop address with
  | blank => simp [touched] at h
  | cell first odd even ihodd iheven =>
      rw [touched] at h
      split at h
      · simp at h
      · simp only [List.mem_append, List.mem_map] at h
        rcases h with (hzero | ⟨a, ha, rfl⟩) | ⟨a, ha, rfl⟩
        · split at hzero
          · simp only [List.mem_singleton] at hzero
            omega
          · simp at hzero
        · have := ihodd ha
          omega
        · have := iheven ha
          omega

/-- Where nothing was written there is zero. -/
theorem byteAt_of_not_mem_touched {m : Memory} {start stop address : Nat}
    (hstart : start ≤ address) (hstop : address < stop) (h : address ∉ m.touched start stop) :
    m.byteAt address = 0 := by
  induction m generalizing start stop address with
  | blank => rfl
  | cell first odd even ihodd iheven =>
      rw [touched, if_neg (by omega)] at h
      simp only [List.mem_append, List.mem_map, not_or, not_exists, not_and] at h
      obtain ⟨⟨hzero, hodd⟩, heven⟩ := h
      rw [byteAt]
      by_cases h0 : address = 0
      · simp [h0, show start = 0 by omega] at hzero
      · rw [if_neg h0]
        by_cases hat : address % 2 = 1
        · rw [if_pos hat]
          have hlo : start / 2 ≤ address / 2 := by omega
          have hhi : address / 2 < stop / 2 := by omega
          exact ihodd hlo hhi fun hmem => hodd _ hmem (by omega)
        · rw [if_neg hat]
          have hlo : (start - 1) / 2 ≤ address / 2 - 1 := by omega
          have hhi : address / 2 - 1 < (stop - 1) / 2 := by omega
          exact iheven hlo hhi fun hmem => heven _ hmem (by omega)

/-- A copy changes the bytes of its target range to those of its source range, and no other. -/
theorem byteAt_copy (m : Memory) (dest : Nat) (source : Memory) (start len address : Nat) :
    (m.copy dest source start len).byteAt address =
      if dest ≤ address ∧ address < dest + len then source.byteAt (start + (address - dest))
      else m.byteAt address := by
  rw [copy, byteAt_setAll]
  simp only [List.mem_append, List.mem_map]
  by_cases hin : dest ≤ address ∧ address < dest + len
  · rw [if_pos hin]
    split
    · rfl
    · next hout =>
        simp only [not_or, not_exists, not_and] at hout
        rw [byteAt_of_not_mem_touched hin.1 hin.2 hout.1]
        have hlo : start ≤ start + (address - dest) := by omega
        have hhi : start + (address - dest) < start + len := by omega
        exact (byteAt_of_not_mem_touched hlo hhi fun hmem => hout.2 _ hmem (by omega)).symm
  · rw [if_neg hin, if_neg]
    rintro (hmem | ⟨a, ha, rfl⟩)
    · exact hin (mem_touched_bounds hmem)
    · have := mem_touched_bounds ha
      exact hin (by omega)

/-- Copying is the same as reading the source range and writing it. -/
theorem byteAt_copy_eq_store (m : Memory) (dest : Nat) (source : Memory)
    (start len address : Nat) :
    (m.copy dest source start len).byteAt address =
      (m.store dest (source.load start len)).byteAt address := by
  rw [byteAt_copy, byteAt_store]
  by_cases hle : dest ≤ address
  · by_cases hlt : address < dest + len
    · have hlen : address - dest < (source.load start len).length := by
        rw [length_load]
        omega
      rw [if_pos ⟨hle, hlt⟩, if_pos hle, List.getD_eq_getElem?_getD,
        List.getElem?_eq_getElem hlen]
      simp [load]
    · rw [if_neg (by omega), if_pos hle, List.getD_eq_getElem?_getD,
        List.getElem?_eq_none (by rw [length_load]; omega), Option.getD_none]
  · rw [if_neg (by omega), if_neg hle]

end Memory

end BlockHost
