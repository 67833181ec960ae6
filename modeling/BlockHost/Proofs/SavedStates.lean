import BlockHost.Proofs.KindTables
import BlockHost.Proofs.Swapping

/-!
# Saved states

The state of a script of commands is its counter, and it travels from host to host as bytes. What is saved
is one whole atom, and any host with any such script takes the counter over from it
(`Host.saved_restored`).

But a host is given whatever bytes there are. `Host.Taken` lists all that can come of that: the bytes start
with a whole atom that is a counter, or there is one of three reasons why not, in a fixed order, and then
nothing is changed but the list of the checkpoints that have been passed.
-/

namespace BlockHost

/-! ## Whole atoms -/

namespace Bytes

theorem ofNat_toNat (bs : Bytes) : ofNat bs.length (toNat bs) = bs := by
  induction bs with
  | nil => rfl
  | cons b bs ih =>
      have hlow : (b.toNat + 256 * toNat bs) % 256 = b.toNat := by
        have hlt := b.toNat_lt
        omega
      have hhigh : (b.toNat + 256 * toNat bs) / 256 = toNat bs := by
        have hlt := b.toNat_lt
        omega
      have hbyte : UInt8.ofNat (b.toNat + 256 * toNat bs) = b := by
        refine UInt8.toNat_inj.1 ?_
        rw [UInt8.toNat_ofNat', hlow]
      rw [List.length_cons, toNat, ofNat, hbyte, hhigh, ih]

/-- Four bytes are those of the word that is read from them. -/
theorem word32_of_length (bs : Bytes) (h : bs.length = 4) : word32 (UInt32.ofNat (toNat bs)) = bs := by
  have hlt := toNat_lt bs
  rw [h, show 256 ^ 4 = 2 ^ 32 from rfl] at hlt
  rw [word32, UInt32.toNat_ofNat', Nat.mod_eq_of_lt hlt, ← h]
  exact ofNat_toNat bs

/-- Eight bytes are those of the number that is read from them. -/
theorem int64_of_length (bs : Bytes) (h : bs.length = 8) :
    int64 (UInt64.ofNat (toNat bs)).toInt64 = bs := by
  have hlt := toNat_lt bs
  rw [h, show 256 ^ 8 = 2 ^ 64 from rfl] at hlt
  rw [int64, UInt64.toUInt64_toInt64, word64, UInt64.toNat_ofNat', Nat.mod_eq_of_lt hlt, ← h]
  exact ofNat_toNat bs

theorem toNat_word32 (v : UInt32) : toNat (word32 v) = v.toNat := by
  rw [word32, toNat_ofNat]
  exact Nat.mod_eq_of_lt v.toNat_lt

end Bytes

namespace Atom

/-- Bytes start with a whole atom of a type and a body: a header that declares the size of the body, and
all of the body. -/
structure StartsWith (bs : Bytes) (type : UInt32) (body : Bytes) : Prop where
  length_lt : body.length < 2 ^ 32
  begins : header type (UInt32.ofNat body.length) ++ body <+: bs

theorem parseWhole_eq_some_iff {bs : Bytes} {a : Atom} :
    parseWhole bs = some a ↔ ∃ type body, StartsWith bs type body ∧ a = ofBody type body := by
  rw [parseWhole_eq]
  constructor
  · intro h
    split at h
    · next hle =>
        unfold headerSize at hle
        cases h
        have hbody : (atStart bs).body.length = declaredSize bs := by
          rw [atStart, headerSize, List.length_take, List.length_drop]
          omega
        have hlt : declaredSize bs < 2 ^ 32 := Bytes.toNat_take_lt bs
        refine ⟨(atStart bs).type, (atStart bs).body, ⟨hbody ▸ hlt, ?_⟩, ?_⟩
        · have hsize := Bytes.word32_of_length (bs.take 4) (by rw [List.length_take]; omega)
          have htype := Bytes.word32_of_length ((bs.drop 4).take 4)
            (by rw [List.length_take, List.length_drop]; omega)
          refine ⟨bs.drop (8 + declaredSize bs), ?_⟩
          rw [hbody, header, declaredSize, hsize, atStart, htype, headerSize, declaredSize]
          have hhead : bs.take 4 ++ (bs.drop 4).take 4 = bs.take 8 := (List.take_add (i := 4) (j := 4)).symm
          rw [hhead, ← List.take_add, List.take_append_drop]
        · rw [ofBody, hbody, atStart]
    · cases h
  · rintro ⟨type, body, ⟨hlt, rest, hbytes⟩, rfl⟩
    have hnumber : (UInt32.ofNat body.length).toNat = body.length := by
      rw [UInt32.toNat_ofNat']
      exact Nat.mod_eq_of_lt hlt
    have hsplit : bs = Bytes.word32 (UInt32.ofNat body.length) ++ (Bytes.word32 type ++ (body ++ rest)) := by
      rw [← hbytes, header]
      simp only [List.append_assoc]
    have hsize : declaredSize bs = body.length := by
      rw [declaredSize, hsplit, List.take_left' (Bytes.length_word32 _), Bytes.toNat_word32, hnumber]
    have hdrop : bs.drop 4 = Bytes.word32 type ++ (body ++ rest) := by
      rw [hsplit, List.drop_left' (Bytes.length_word32 _)]
    have hbehind : bs.drop headerSize = body ++ rest := by
      rw [show headerSize = 4 + 4 from rfl, ← List.drop_drop, hdrop, List.drop_left' (Bytes.length_word32 _)]
    have hle : headerSize + declaredSize bs ≤ bs.length := by
      have hlength := congrArg List.length hbehind
      rw [List.length_drop, List.length_append] at hlength
      rw [← hbytes, List.length_append, List.length_append, length_header, hsize] at *
      unfold headerSize
      omega
    rw [if_pos hle, atStart, hbehind, hsize, List.take_left, hdrop,
      List.take_left' (Bytes.length_word32 _), Bytes.toNat_word32, UInt32.ofNat_toNat, ofBody]

theorem int64At?_eq_some_iff {bs : Bytes} {n : Int64} :
    bs.int64At? 0 = some n ↔ Bytes.int64 n = bs.take 8 := by
  constructor
  · intro h
    obtain ⟨word, hword, rfl⟩ := Option.map_eq_some_iff.1 h
    obtain ⟨part, hpart, rfl⟩ := Option.map_eq_some_iff.1 hword
    rw [Bytes.slice?] at hpart
    split at hpart
    · next hlength =>
        cases hpart
        exact Bytes.int64_of_length _ hlength
    · cases hpart
  · intro h
    have hread := Bytes.int64At?_append [] (bs.drop 8) n
    rwa [List.nil_append, h, List.take_append_drop] at hread

section Values

variable {s : Schema} {type : UInt32} {body : Bytes} {n : Int64}

theorem kindOf_eq_long_iff (hs : s.vocabulary.Distinct) : s.kindOf type = .long ↔ type = s.id .long := by
  have htabled := Kind.tabled hs
  constructor
  · intro h
    by_cases hrow : ∃ row ∈ Kind.ofTerm, type = s.id row.1
    · obtain ⟨⟨t, kind⟩, hrow, rfl⟩ := hrow
      rw [htabled.kindOf_term t kind hrow] at h
      have hlong : ∀ row ∈ Kind.ofTerm, row.2 = .long → row.1 = .long := by decide
      rw [hlong _ hrow h]
    · have hnone : ∀ row ∈ Kind.ofTerm, type ≠ s.id row.1 := fun row hmem heq => hrow ⟨row, hmem, heq⟩
      rw [htabled.kindOf_other type hnone] at h
      cases h
  · rintro rfl
    exact htabled.kindOf_term .long .long (by decide)

/-- A counter is read from the first eight bytes of a long, and from nothing else. -/
theorem value?_eq_long_iff (hs : s.vocabulary.Distinct) :
    (ofBody type body).value? s = some (.long n) ↔ type = s.id .long ∧ Bytes.int64 n = body.take 8 := by
  rw [← kindOf_eq_long_iff hs, ← int64At?_eq_some_iff]
  cases hkind : s.kindOf type <;> simp [value?, ofBody, hkind, Option.bind_eq_some_iff]

end Values

end Atom

namespace Host

variable {h h' first first' after : Host Command.Program} {saved : Bytes}

/-! ## Given any bytes -/

/-- The script has another counter now. All else is as it was, but that a checkpoint has been passed. -/
structure Restored (n : Int64) (h after : Host Command.Program) : Prop where
  script : ∃ p, h.engine.value.script = some p ∧ after.engine.value.script = some { p with counter := n }
  rest : after = { h with
    engine := h.engine.update fun e => { e with script := after.engine.value.script }
    passed := after.passed }

/-- What comes of bytes that are given to a host as a saved state. -/
inductive Taken (h : Host Command.Program) (saved : Bytes) :
    EStateM.Result (Stop HostFailure) (Host Command.Program) Unit → Prop where
  /-- They start with a counter, and there is a script to take it. -/
  | restored {body : Bytes} {n : Int64} {after : Host Command.Program}
      (whole : Atom.StartsWith saved (h.schema.id .long) body) (counter : Bytes.int64 n = body.take 8)
      (done : Restored n h after) : Taken h saved (.ok () after)
  /-- They do not start with a whole atom. Whether there is a script is not asked. -/
  | incomplete (none : ∀ type body, ¬ Atom.StartsWith saved type body) :
      Taken h saved (.error (.refused .invalidState) h)
  /-- There is no script. What type the atom has is not asked. -/
  | noScript {type : UInt32} {body : Bytes} (whole : Atom.StartsWith saved type body)
      (none : h.engine.value.script = none) : Taken h saved (.error (.refused .noScript) h)
  /-- The atom is not a long, or too short for one. Only a checkpoint has been passed. -/
  | notCounter {type : UInt32} {body : Bytes} {after : Host Command.Program}
      (whole : Atom.StartsWith saved type body) (there : h.engine.value.script.isSome)
      (other : ¬ (type = h.schema.id .long ∧ 8 ≤ body.length))
      (kept : after = { h with passed := after.passed }) :
      Taken h saved (.error (.refused (.script (.runtime "state is not a counter"))) after)

theorem schema_pass (h : Host Command.Program) (c : Checkpoint) : (h.pass c).schema = h.schema := by
  rw [pass_eq]

theorem leave_pass_hold (hidle : h.engine.holder = none) (c : Checkpoint) :
    (h.hold.pass c).leave = h.pass c := by
  obtain ⟨side, hhold⟩ := h.exists_hold
  rw [hhold, pass_eq, pass_eq, leave, Gate.leave, ← hidle]

/-- A script with a state that it can take. -/
theorem restored_of_restore (hidle : h.engine.holder = none) {p : Command.Program} {state : Atom}
    {n : Int64} (hparse : Atom.parseWhole saved = some state) (hscript : h.engine.value.script = some p)
    (hvalue : state.value? h.schema = some (.long n)) :
    ∃ after, restore Command.language saved h = .ok () after ∧ Restored n h after := by
  have htake : Command.language.restore h.schema state p = .ok { p with counter := n } := by
    show Command.restore h.schema state p = _
    rw [Command.restore, hvalue]
  let give (e : Engine Command.Program) : Engine Command.Program :=
    { e with script := some { p with counter := n } }
  have hgiven : restoreScript Command.language state h.hold
      = .ok () ((h.hold.pass .stateRestored).updateEngine give) := by
    have hschema : h.hold.schema = h.schema := rfl
    rw [restoreScript, value_hold, hscript]
    simp only [schema_pass, hschema, htake]
    rfl
  refine ⟨((h.hold.pass .stateRestored).updateEngine give).leave, ?_, ⟨p, hscript, rfl⟩, ?_⟩
  · rw [restore, hparse]
    simp only [atGate, hgiven]
  · obtain ⟨side, hhold⟩ := h.exists_hold
    rw [hhold, pass_eq, Gate.update, hidle]
    rfl

/-- A script with a state that it cannot take. -/
theorem kept_of_restore (hidle : h.engine.holder = none) {p : Command.Program} {state : Atom}
    (hparse : Atom.parseWhole saved = some state) (hscript : h.engine.value.script = some p)
    (hvalue : ∀ n, state.value? h.schema ≠ some (.long n)) :
    restore Command.language saved h =
      .error (.refused (.script (.runtime "state is not a counter"))) (h.pass .stateRestored) := by
  have hrefuse : Command.language.restore h.schema state p = .error (.runtime "state is not a counter") := by
    show Command.restore h.schema state p = _
    rw [Command.restore]
    split
    · next n heq => exact absurd heq (hvalue n)
    · rfl
  have hkept : restoreScript Command.language state h.hold
      = .error (.refused (.script (.runtime "state is not a counter")))
          (h.hold.pass .stateRestored) := by
    have hschema : h.hold.schema = h.schema := rfl
    rw [restoreScript, value_hold, hscript]
    simp only [schema_pass, hschema, hrefuse]
  rw [restore, hparse]
  simp only [atGate, hkept, leave_pass_hold hidle]

theorem restore_taken (hidle : h.engine.holder = none) (hdistinct : h.schema.vocabulary.Distinct)
    (saved : Bytes) : Taken h saved (restore Command.language saved h) := by
  cases hparse : Atom.parseWhole saved with
  | none =>
      rw [restore, hparse]
      refine .incomplete fun type body hstarts => ?_
      have hsome := Atom.parseWhole_eq_some_iff.2 ⟨type, body, hstarts, rfl⟩
      rw [hparse] at hsome
      cases hsome
  | some state =>
      obtain ⟨type, body, hstarts, rfl⟩ := Atom.parseWhole_eq_some_iff.1 hparse
      cases hscript : h.engine.value.script with
      | none =>
          have hnone : restoreScript Command.language (Atom.ofBody type body) h.hold
              = .error (.refused .noScript) h.hold := by
            rw [restoreScript, value_hold, hscript]
          rw [restore, hparse]
          simp only [atGate, hnone, leave_hold, leave_of_idle hidle]
          exact .noScript hstarts hscript
      | some p =>
          by_cases hcounter : type = h.schema.id .long ∧ 8 ≤ body.length
          · obtain ⟨rfl, hlength⟩ := hcounter
            have hbytes := Bytes.int64_of_length (body.take 8) (by rw [List.length_take]; omega)
            have hvalue := (Atom.value?_eq_long_iff hdistinct).2 ⟨rfl, hbytes⟩
            obtain ⟨after, hrestore, hdone⟩ := restored_of_restore hidle hparse hscript hvalue
            rw [hrestore]
            exact .restored hstarts hbytes hdone
          · have hvalue : ∀ n, (Atom.ofBody type body).value? h.schema ≠ some (.long n) := by
              intro n heq
              obtain ⟨rfl, hbytes⟩ := (Atom.value?_eq_long_iff hdistinct).1 heq
              refine hcounter ⟨rfl, ?_⟩
              have hlength := congrArg List.length hbytes
              rw [Bytes.length_int64, List.length_take] at hlength
              omega
            rw [kept_of_restore hidle hparse hscript hvalue]
            exact .notCounter hstarts (by rw [hscript]; rfl) hcounter (by rw [pass_eq])

/-! ## Given what was saved -/

/-- The host with another value in the counter of its script. -/
def withCounter (h : Host Command.Program) (n : Int64) : Host Command.Program :=
  h.updateEngine fun e => { e with script := e.script.map fun p => { p with counter := n } }

theorem save_counter (hidle : h.engine.holder = none) (hstate : 16 ≤ h.settings.stateCapacity)
    {p : Command.Program} (hscript : h.engine.value.script = some p) (n : Int64) :
    save Command.language (h.withCounter n) =
      if h.settings.stateCapacity ≤ Fault.maxLength then
        .ok (Command.counterAtom h.schema n) (h.withCounter n)
      else .error (.crashed .capacity) (h.withCounter n) := by
  have hafter : (h.withCounter n).engine.value.script = some { p with counter := n } := by
    show h.engine.value.script.map _ = _
    rw [hscript]
    rfl
  have hsettings : (h.withCounter n).settings = h.settings := rfl
  have hschema : (h.withCounter n).schema = h.schema := rfl
  have hfree : (h.withCounter n).engine.holder = none := hidle
  generalize h.withCounter n = counting at hafter hsettings hschema hfree
  rw [← hsettings] at hstate ⊢
  cases hroom : counting.stateRoom with
  | error fault =>
      obtain ⟨hlarge, rfl⟩ := stateRoom_error hroom
      rw [if_neg (Nat.not_le.2 hlarge), save, hroom]
  | ok room =>
      have hle : counting.settings.stateCapacity ≤ Fault.maxLength := by
        rw [stateRoom, Buffer.create, Fault.addressable] at hroom
        split at hroom
        · next hle => exact hle
        · cases hroom
      have hwritten := Command.stateOf_counter (h := counting) (p := { p with counter := n })
        ((stateRoom_length hroom).symm ▸ hstate)
      have hsaved : saveScript Command.language room counting.hold
          = .ok (Command.counterAtom counting.schema n) counting.hold := by
        rw [saveScript, value_hold, hafter]
        simp only [show counting.hold.stateOf Command.language room { p with counter := n } = _
          from hwritten]
      rw [if_pos hle, save, hroom]
      simp only [atGate, hsaved, leave_hold, leave_of_idle hfree, hschema]

/-- The state of a script, whatever its counter is, is saved as one whole atom, from which any host gives
its own script the same counter; and whatever bytes a host is given, they are taken as a counter or change
nothing. Only a room for states that cannot be addressed keeps a state from being saved. -/
theorem saved_restored {supply supply' : Supply} {settings settings' : Settings} {ops ops' : List Operation}
    {reports reports' : List Report} (hcreate : create supply Command.language settings = .ok first)
    (hrun : first.performAll Command.language ops = .ok (h, reports))
    (hcreate' : create supply' Command.language settings' = .ok first')
    (hrun' : first'.performAll Command.language ops' = .ok (h', reports')) :
    (∀ n, h.hasScript = true →
      (Fault.maxLength < h.settings.stateCapacity ∧
        save Command.language (h.withCounter n)
          = .error (.crashed .capacity) (h.withCounter n)) ∨
      ∃ saved state,
        save Command.language (h.withCounter n) = .ok saved (h.withCounter n) ∧
        Atom.parseWhole saved = some state ∧ state.paddedSize = saved.length ∧
        state.value? h.schema = some (.long n) ∧
        (h'.hasScript = true →
          ∃ after, restore Command.language saved h' = .ok () after ∧ Restored n h' after)) ∧
    ∀ saved, Taken h' saved (restore Command.language saved h') := by
  have hnew := created hcreate
  have hnew' := created hcreate'
  obtain ⟨hidle, hsettings, -⟩ := performAll_switched hnew.idle hrun
  have hidle' := (performAll_switched hnew'.idle hrun').1
  have hschema : h.schema = Schema.ofVocabulary (Vocabulary.ofRegistry .empty).1 :=
    (schema_performAll hnew.idle hrun).trans hnew.schema_eq
  have hschema' : h'.schema = Schema.ofVocabulary (Vocabulary.ofRegistry .empty).1 :=
    (schema_performAll hnew'.idle hrun').trans hnew'.schema_eq
  have hsame : h'.schema = h.schema := hschema'.trans hschema.symm
  have hdistinct : h.schema.vocabulary.Distinct := by
    rw [hschema]
    exact distinct_ofRegistry
  have hstate : 16 ≤ h.settings.stateCapacity := by
    have hvalid := Settings.le_stateCapacity (create_engine hcreate).1
    rw [hsettings, hnew.settings_eq]
    exact Nat.le_trans (by decide) hvalid
  refine ⟨fun n hthere => ?_, restore_taken hidle' (hsame ▸ hdistinct)⟩
  obtain ⟨p, hscript⟩ := Option.isSome_iff_exists.1 hthere
  have hsave := save_counter hidle hstate hscript n
  by_cases hle : h.settings.stateCapacity ≤ Fault.maxLength
  · rw [if_pos hle] at hsave
    have hlt : (Bytes.int64 n).length < 2 ^ 32 := by
      rw [Bytes.length_int64]
      decide
    have hparse := Atom.parseWhole_encode (h.schema.id .long) (Bytes.int64 n) [] hlt
    rw [List.append_nil] at hparse
    have hvalue : (Atom.ofBody (h.schema.id .long) (Bytes.int64 n)).value? h.schema = some (.long n) :=
      Scalar.value?_body hdistinct (.long n)
    refine .inr ⟨_, _, hsave, hparse, Atom.paddedSize_ofBody hlt _, hvalue, fun hthere' => ?_⟩
    obtain ⟨q, hscript'⟩ := Option.isSome_iff_exists.1 hthere'
    exact restored_of_restore hidle' hparse hscript' (by rw [hsame]; exact hvalue)
  · rw [if_neg hle] at hsave
    exact .inl ⟨Nat.lt_of_not_le hle, hsave⟩

/-- A script that has counted one event, whose counter is made a negative one, hands it to a script of
another source; a state of three bytes is none. -/
theorem saved_restored_counting :
    let s := Schema.ofVocabulary (Vocabulary.ofRegistry .empty).1
    let ops : List Operation := [.block (noteCall s false 3)]
    ∃ first h reports other, create .ample Command.language (scripted "count") = .ok first ∧
      first.performAll Command.language ops = .ok (h, reports) ∧ h.counter = 1 ∧
      create .ample Command.language (scripted "echo") = .ok other ∧
      (∃ saved after, save Command.language (h.withCounter (-7)) = .ok saved (h.withCounter (-7)) ∧
        restore Command.language saved other = .ok () after ∧ Restored (-7) other after) ∧
      Taken other [1, 2, 3] (restore Command.language [1, 2, 3] other) := by
  intro s ops
  have hcheck : ((create .ample Command.language (scripted "count")).toOption.bind fun first =>
      (first.performAll Command.language ops).toOption.bind fun x =>
        (create .ample Command.language (scripted "echo")).toOption.map fun other =>
          (x.1.counter, x.1.hasScript, decide (x.1.settings.stateCapacity ≤ Fault.maxLength),
            other.hasScript)) = some (1, true, true, true) := by
    decide +kernel
  simp only [Option.bind_eq_some_iff, Option.map_eq_some_iff, toOption_eq_some, Prod.exists,
    Prod.mk.injEq, decide_eq_true_eq] at hcheck
  obtain ⟨first, hcreate, h, reports, hrun, other, hother, hcounter, hthere, hroom, hthere'⟩ := hcheck
  have hidle : other.performAll Command.language [] = .ok (other, []) := rfl
  obtain ⟨hsaved, htaken⟩ := saved_restored hcreate hrun hother hidle
  refine ⟨first, h, reports, other, hcreate, hrun, hcounter, hother, ?_, htaken [1, 2, 3]⟩
  rcases hsaved (-7) hthere with ⟨hlarge, -⟩ | ⟨saved, state, hsave, -, -, -, hrestore⟩
  · exact absurd hroom (Nat.not_le.2 hlarge)
  · obtain ⟨after, hafter, hdone⟩ := hrestore hthere'
    exact ⟨saved, after, hsave, hafter, hdone⟩

end Host

end BlockHost
