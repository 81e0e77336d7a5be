import Suspension.Proofs.Container.Canonical

/-!
# No container begins another

A parser that takes a value off some bytes has looked at nothing behind the bytes that it took: it takes
the same value off them whatever follows.  This is shown part by part, down to the body of a method, which
is cut off by its length and has to be used up.  A container that is accepted is therefore neither the
beginning of another nor the continuation of one.

## Main definitions
* `Parser.Local`: what a parser reads, it reads in front of anything.
* `Parser.OfFormat`: the parsers that the format is made of.

## Main results
* `Parser.OfFormat.isLocal`: each of them is local.
* `decodeClass_prefixFree`: containers are refused with bytes missing and with bytes to spare.
-/

namespace Suspension.Container

namespace Parser

variable {α β : Type} {p : Parser α} {f : α → Parser β}

/-- What a parser takes off the front of an input, it takes off the front of any. -/
def Local (p : Parser α) : Prop :=
  ∀ bytes a rest, p bytes = .ok (a, rest) → ∃ taken, bytes = taken ++ rest ∧ p.Reads taken a

/-- What follows an input that a local parser reads is left over with the rest of it. -/
theorem Local.extend (h : p.Local) {bytes rest : List UInt8} {a : α} (read : p bytes = .ok (a, rest))
    (more : List UInt8) : p (bytes ++ more) = .ok (a, rest ++ more) := by
  obtain ⟨taken, rfl, reads⟩ := h bytes a rest read
  rw [List.append_assoc]
  exact reads (rest ++ more)

/-! ## Parsers made of parsers -/

theorem local_pure (a : α) : Local (Pure.pure a) := by
  intro bytes b rest read
  cases read
  exact ⟨[], rfl, reads_pure a⟩

theorem local_byte : byte.Local := fun _ b _ read => ⟨[b], byte_eq_ok.1 read, reads_byte b⟩

theorem local_take (n : Nat) : (take n).Local := by
  intro bytes taken rest read
  obtain ⟨rfl, rfl⟩ := take_eq_ok read
  exact ⟨taken, rfl, reads_take taken⟩

theorem local_exactly (expected : List UInt8) : (exactly expected).Local :=
  fun _ _ _ read => ⟨expected, exactly_eq_ok read, reads_exactly expected⟩

namespace Local

theorem bind (first : p.Local) (second : ∀ a, (f a).Local) : (p >>= f).Local := by
  intro bytes b rest read
  obtain ⟨a, mid, taking, later⟩ := bind_eq_ok.1 read
  obtain ⟨taken, rfl, reads⟩ := first bytes a mid taking
  obtain ⟨taken', rfl, reads'⟩ := second a mid b rest later
  exact ⟨taken ++ taken', (List.append_assoc ..).symm, reads.bind reads'⟩

theorem map (h : p.Local) (g : α → β) : Local (p >>= fun a => Pure.pure (g a)) :=
  h.bind fun a => local_pure (g a)

theorem filterMap (h : p.Local) (g : α → Option β) (reason : Reason) : (p.filterMap g reason).Local := by
  intro bytes b rest read
  obtain ⟨a, taking, found⟩ := filterMap_eq_ok.1 read
  obtain ⟨taken, rfl, reads⟩ := h bytes a rest taking
  exact ⟨taken, rfl, reads.filterMap found reason⟩

theorem inside (h : p.Local) (part : Part) : (p.inside part).Local := by
  intro bytes a rest read
  obtain ⟨taken, rfl, reads⟩ := h bytes a rest (inside_eq_ok.1 read)
  exact ⟨taken, rfl, reads.inside part⟩

theorem times (h : p.Local) (n : Nat) : (p.times n).Local := by
  induction n with
  | zero => exact local_pure []
  | succ n ih => exact h.bind fun a => ih.map (a :: ·)

/-- A part that has been cut out is used up whatever the parser of the part does, so nothing that follows it
is looked at. -/
theorem enclosed (p : Parser α) (inner : List UInt8) : (p.enclosed inner).Local := by
  intro bytes a rest read
  obtain ⟨whole, rfl⟩ := enclosed_eq_ok.1 read
  exact ⟨[], rfl, fun rest => enclosed_eq_ok.2 ⟨whole, rfl⟩⟩

/-- What a first byte decides is local if each of the choices is. -/
theorem tagged {choose : UInt8 → Option (Parser α)} (each : ∀ b p, choose b = some p → p.Local)
    (reason : Reason) : Local (Parser.filterMap Parser.byte choose reason >>= fun p => p) := by
  intro bytes a rest read
  obtain ⟨p, mid, chosen, later⟩ := bind_eq_ok.1 read
  obtain ⟨b, first, found⟩ := filterMap_eq_ok.1 chosen
  obtain rfl := byte_eq_ok.1 first
  obtain ⟨taken, rfl, reads⟩ := each b p found mid a rest later
  exact ⟨b :: taken, rfl, reads.tagged b found reason⟩

end Local

/-! ## Integers -/

/-- Each case only looks at the byte in front, so the bytes taken are the same whatever follows. -/
theorem local_unsigned (width : Nat) : (unsigned width).Local := by
  intro bytes n rest read
  induction bytes generalizing width n with
  | nil => cases read
  | cons b bytes ih =>
    simp only [unsigned] at read
    split at read
    · next last =>
      split at read
      · next fits =>
        cases read
        exact ⟨[b], rfl, fun rest => by simp [unsigned, last, fits]⟩
      · cases read
    · next more =>
      split at read
      · next wide =>
        split at read
        · next m rest' later =>
          simp only [Except.ok.injEq, Prod.mk.injEq] at read
          obtain ⟨rfl, rfl⟩ := read
          obtain ⟨taken, rfl, reads⟩ := ih (width - 7) m later
          refine ⟨b :: taken, rfl, fun rest => ?_⟩
          simp only [List.cons_append, unsigned, more, if_false, wide, if_true, reads rest]
        · cases read
      · cases read

theorem local_signed (width : Nat) : (signed width).Local := by
  intro bytes n rest read
  induction bytes generalizing width n with
  | nil => cases read
  | cons b bytes ih =>
    simp only [signed] at read
    split at read
    · next positive =>
      cases read
      refine ⟨[b], rfl, fun rest => ?_⟩
      simp only [List.cons_append, signed, if_pos positive, List.nil_append]
    · next big =>
      split at read
      · next negative =>
        cases read
        refine ⟨[b], rfl, fun rest => ?_⟩
        simp only [List.cons_append, signed, if_neg big, if_pos negative, List.nil_append]
      · next long =>
        split at read
        · next wide =>
          split at read
          · next m rest' later =>
            cases read
            obtain ⟨taken, rfl, reads⟩ := ih (width - 7) m later
            refine ⟨b :: taken, rfl, fun rest => ?_⟩
            simp only [List.cons_append, signed, if_neg big, if_neg long, if_pos wide, reads rest]
          · cases read
        · cases read

theorem local_word : word.Local := (local_unsigned 16).map UInt16.ofNat

theorem local_count : count.Local := (local_unsigned 32).map UInt32.ofNat

theorem local_short : short.Local := (local_signed 16).map Int16.ofInt

theorem local_int : int.Local := (local_signed 32).map Int32.ofInt

theorem local_long : long.Local := (local_signed 64).map Int64.ofInt

theorem local_label : label.Local := local_count

/-! ## Lists, texts and constants -/

theorem Local.vec (h : p.Local) : (vec p).Local := local_count.bind fun n => h.times n.toNat

theorem local_name : name.Local :=
  (local_count.bind fun n => local_take n.toNat).filterMap text? .invalidText

theorem local_flag : flag.Local := local_byte.filterMap _ .invalidTag

theorem local_optName : optName.Local := by
  refine local_flag.bind fun there => ?_
  cases there with
  | false => exact local_pure none
  | true => exact local_name.map some

theorem local_member : member.Local :=
  local_name.bind fun owner => local_name.bind fun n => local_name.map (MemberRef.mk owner n)

theorem local_bits32 : bits32.Local := (local_take 4).map fun bytes => UInt32.ofNat (littleEndian bytes)

theorem local_bits64 : bits64.Local := (local_take 8).map fun bytes => UInt64.ofNat (littleEndian bytes)

theorem local_constantOfTag {tag : UInt8} {p : Parser Constant} (h : constantOfTag? tag = some p) :
    p.Local := by
  unfold constantOfTag? at h
  rcases eq_of_ite_eq_some h with ⟨-, rfl⟩ | h
  · exact local_int.map Constant.int
  rcases eq_of_ite_eq_some h with ⟨-, rfl⟩ | h
  · exact local_bits32.map Constant.float
  rcases eq_of_ite_eq_some h with ⟨-, rfl⟩ | h
  · exact local_long.map Constant.long
  rcases eq_of_ite_eq_some h with ⟨-, rfl⟩ | h
  · exact local_bits64.map Constant.double
  rcases eq_of_ite_eq_some h with ⟨-, rfl⟩ | h
  · exact local_name.map Constant.string
  rcases eq_of_ite_eq_some h with ⟨-, rfl⟩ | h
  · exact local_name.map Constant.classRef
  cases h

theorem local_constant : constant.Local := Local.tagged (fun _ _ => local_constantOfTag) .invalidTag

/-! ## Instructions -/

theorem local_tableSwitch : tableSwitch.Local :=
  (local_int.bind fun low => local_int.bind fun high => local_label.bind fun default =>
    local_label.vec.map fun targets => (low, high, default, targets)).filterMap _ .lengthMismatch

theorem local_lookupSwitch : lookupSwitch.Local := by
  refine local_label.bind fun default => ?_
  have pair : Local (do
      let key ← int
      let target ← label
      return (key, target)) := local_int.bind fun key => local_label.map (Prod.mk key)
  exact pair.vec.map (Instr.lookupSwitch default)

theorem local_tabled {b : UInt8} {p : Parser Instr} (h : tabled? b = some p) : p.Local := by
  unfold tabled? at h
  split at h
  · next op _ =>
    cases h
    exact local_pure (Instr.plain op)
  split at h
  · next op _ =>
    cases h
    exact local_word.map (Instr.slot op)
  split at h
  · next op _ =>
    cases h
    exact local_label.map (Instr.jump op)
  split at h
  · next op _ =>
    cases h
    exact local_member.map (Instr.field op)
  split at h
  · next kind _ =>
    cases h
    exact local_member.map (Instr.invoke kind)
  split at h
  · next op _ =>
    cases h
    exact local_name.map (Instr.typed op)
  · cases h

theorem local_untabled {b : UInt8} {p : Parser Instr} (h : untabled? b = some p) : p.Local := by
  unfold untabled? at h
  rcases eq_of_ite_eq_some h with ⟨-, rfl⟩ | h
  · exact local_pure _
  rcases eq_of_ite_eq_some h with ⟨-, rfl⟩ | h
  · exact local_int.map Instr.iconst
  rcases eq_of_ite_eq_some h with ⟨-, rfl⟩ | h
  · exact local_pure _
  rcases eq_of_ite_eq_some h with ⟨-, rfl⟩ | h
  · exact local_pure _
  rcases eq_of_ite_eq_some h with ⟨-, rfl⟩ | h
  · exact local_long.map Instr.lconst
  rcases eq_of_ite_eq_some h with ⟨-, rfl⟩ | h
  · exact local_pure _
  rcases eq_of_ite_eq_some h with ⟨-, rfl⟩ | h
  · exact local_pure _
  rcases eq_of_ite_eq_some h with ⟨-, rfl⟩ | h
  · exact local_pure _
  rcases eq_of_ite_eq_some h with ⟨-, rfl⟩ | h
  · exact local_bits32.map Instr.fconst
  rcases eq_of_ite_eq_some h with ⟨-, rfl⟩ | h
  · exact local_pure _
  rcases eq_of_ite_eq_some h with ⟨-, rfl⟩ | h
  · exact local_pure _
  rcases eq_of_ite_eq_some h with ⟨-, rfl⟩ | h
  · exact local_bits64.map Instr.dconst
  rcases eq_of_ite_eq_some h with ⟨-, rfl⟩ | h
  · exact local_byte.map fun b => Instr.bipush b.toInt8
  rcases eq_of_ite_eq_some h with ⟨-, rfl⟩ | h
  · exact local_short.map Instr.sipush
  rcases eq_of_ite_eq_some h with ⟨-, rfl⟩ | h
  · exact (local_constant.inside .constant).map Instr.ldc
  rcases eq_of_ite_eq_some h with ⟨-, rfl⟩ | h
  · exact local_word.bind fun s => local_short.map (Instr.iinc s)
  rcases eq_of_ite_eq_some h with ⟨-, rfl⟩ | h
  · exact local_byte.filterMap _ .invalidTag
  rcases eq_of_ite_eq_some h with ⟨-, rfl⟩ | h
  · exact local_name.bind fun descriptor => local_byte.map (Instr.multiNewArray descriptor)
  rcases eq_of_ite_eq_some h with ⟨-, rfl⟩ | h
  · exact local_tableSwitch.inside .tableSwitch
  rcases eq_of_ite_eq_some h with ⟨-, rfl⟩ | h
  · exact local_lookupSwitch.inside .lookupSwitch
  rcases eq_of_ite_eq_some h with ⟨-, rfl⟩ | h
  · exact local_name.bind fun n => local_name.map (Instr.invokeDynamic n)
  rcases eq_of_ite_eq_some h with ⟨-, rfl⟩ | h
  · exact local_label.map Instr.label
  cases h

theorem local_operands {b : UInt8} {p : Parser Instr} (h : operands? b = some p) : p.Local := by
  rcases Option.or_eq_some_iff.1 h with tabled | ⟨-, untabled⟩
  · exact local_tabled tabled
  · exact local_untabled untabled

theorem local_instr : instr.Local := Local.tagged (fun _ _ => local_operands) .unknownOpcode

/-! ## Methods and classes -/

theorem local_region : region.Local :=
  local_label.bind fun start => local_label.bind fun stop => local_label.bind fun handler =>
    local_optName.map (Region.mk start stop handler)

theorem local_code : code.Local :=
  (local_instr.inside .instruction).vec.bind fun instrs =>
    (local_region.inside .region).vec.map (Code.mk instrs)

theorem local_method : method.Local :=
  local_word.bind fun access => (local_name.inside .methodName).bind fun n =>
    (local_name.inside .methodDescriptor).bind fun descriptor => local_word.bind fun maxLocals =>
      local_count.bind fun size => ((local_take size.toNat).inside .code).bind fun body =>
        (Local.enclosed code body).map (Method.mk access n descriptor maxLocals)

theorem local_container : container.Local :=
  ((local_exactly Encode.magic).inside .magic).bind fun _ =>
    ((local_exactly Encode.version).inside .version).bind fun _ => local_word.bind fun access =>
      (local_name.inside .className).bind fun n => local_optName.bind fun superName =>
        local_name.vec.bind fun interfaces =>
          (local_method.inside .method).vec.map (Class.mk access n superName interfaces)

/-- The parsers that the format is made of: fixed bytes, integers of every width, texts, lists of items of
the format, and the parts of a class, each by itself and as a section that failures are located in. -/
inductive OfFormat : {α : Type} → Parser α → Prop
  | byte : OfFormat byte
  | take (n : Nat) : OfFormat (take n)
  | exactly (expected : List UInt8) : OfFormat (exactly expected)
  | unsigned (width : Nat) : OfFormat (unsigned width)
  | signed (width : Nat) : OfFormat (signed width)
  | word : OfFormat word
  | count : OfFormat count
  | short : OfFormat short
  | int : OfFormat int
  | long : OfFormat long
  | label : OfFormat label
  | name : OfFormat name
  | flag : OfFormat flag
  | optName : OfFormat optName
  | member : OfFormat member
  | bits32 : OfFormat bits32
  | bits64 : OfFormat bits64
  | constantOfTag {tag : UInt8} {p : Parser Constant} : constantOfTag? tag = some p → OfFormat p
  | constant : OfFormat constant
  | tableSwitch : OfFormat tableSwitch
  | lookupSwitch : OfFormat lookupSwitch
  | operands {b : UInt8} {p : Parser Instr} : operands? b = some p → OfFormat p
  | instr : OfFormat instr
  | region : OfFormat region
  | code : OfFormat code
  | method : OfFormat method
  | container : OfFormat container
  | vec {α : Type} {item : Parser α} : OfFormat item → OfFormat (vec item)
  | times {α : Type} {item : Parser α} (n : Nat) : OfFormat item → OfFormat (item.times n)
  | inside {α : Type} {p : Parser α} (part : Part) : OfFormat p → OfFormat (p.inside part)
  | enclosed {α : Type} {p : Parser α} (inner : List UInt8) : OfFormat p → OfFormat (p.enclosed inner)

theorem OfFormat.isLocal (h : OfFormat p) : p.Local := by
  induction h with
  | byte => exact local_byte
  | take n => exact local_take n
  | exactly expected => exact local_exactly expected
  | unsigned width => exact local_unsigned width
  | signed width => exact local_signed width
  | word => exact local_word
  | count => exact local_count
  | short => exact local_short
  | int => exact local_int
  | long => exact local_long
  | label => exact local_label
  | name => exact local_name
  | flag => exact local_flag
  | optName => exact local_optName
  | member => exact local_member
  | bits32 => exact local_bits32
  | bits64 => exact local_bits64
  | constantOfTag found => exact local_constantOfTag found
  | constant => exact local_constant
  | tableSwitch => exact local_tableSwitch
  | lookupSwitch => exact local_lookupSwitch
  | operands found => exact local_operands found
  | instr => exact local_instr
  | region => exact local_region
  | code => exact local_code
  | method => exact local_method
  | container => exact local_container
  | vec _ ih => exact ih.vec
  | times n _ ih => exact ih.times n
  | inside part _ ih => exact ih.inside part
  | enclosed inner _ _ => exact Local.enclosed _ inner

end Parser

theorem decodeClass_eq_ok {bytes : List UInt8} {c : Class} :
    decodeClass bytes = .ok c ↔ Parser.container bytes = .ok (c, []) := by
  unfold decodeClass
  rw [← Parser.whole_eq_ok]
  split
  · next whole => rw [whole]; simp
  · next whole => rw [whole]; simp

/-- The container format is prefix-free: behind a container that is accepted, further bytes are refused where
they begin, and a container that is accepted is not accepted with some of its last bytes missing.  Every
parser of the format that reads an input reads the same value in front of anything that follows, and
leaves what follows over. -/
theorem decodeClass_prefixFree :
    (∀ bytes c, decodeClass bytes = .ok c →
      (∀ more, more ≠ [] → decodeClass (bytes ++ more) = .error ⟨bytes.length, .endOfInput, []⟩) ∧
      (∀ front missing, missing ≠ [] → front ++ missing = bytes → ∃ e, decodeClass front = .error e)) ∧
    ∀ (α : Type) (p : Parser α), p.OfFormat → ∀ bytes a rest, p bytes = .ok (a, rest) →
      ∀ more, p (bytes ++ more) = .ok (a, rest ++ more) := by
  have behind {bytes : List UInt8} {c : Class} (decoded : decodeClass bytes = .ok c) (more : List UInt8)
      (some : more ≠ []) : decodeClass (bytes ++ more) = .error ⟨bytes.length, .endOfInput, []⟩ := by
    have left := Parser.local_container.extend (decodeClass_eq_ok.1 decoded) more
    obtain ⟨b, more, rfl⟩ := List.exists_cons_of_ne_nil some
    simp [decodeClass, Parser.whole, left]
  refine ⟨fun bytes c decoded => ⟨behind decoded, ?_⟩, fun _ p made _ _ _ read => made.isLocal.extend read⟩
  rintro front missing some rfl
  cases early : decodeClass front with
  | error e => exact ⟨e, rfl⟩
  | ok c' => cases (behind early missing some).symm.trans decoded

theorem paddedIdleClass_prefixFree :
    decodeClass paddedIdleClass = .ok idleClass ∧
    decodeClass (paddedIdleClass ++ [0x00]) = .error ⟨paddedIdleClass.length, .endOfInput, []⟩ ∧
    (∃ e, decodeClass (paddedIdleClass.take 20) = .error e) ∧
    Parser.instr [0x02, 0xB1] = .ok (.iconst (-1), [0xB1]) ∧
    Parser.instr ([0x02, 0xB1] ++ [0x00]) = .ok (.iconst (-1), [0xB1] ++ [0x00]) := by
  obtain ⟨each, parts⟩ := decodeClass_prefixFree
  have decoded : decodeClass paddedIdleClass = .ok idleClass := eq_ok_of_toOption (by decide +kernel)
  have read : Parser.instr [0x02, 0xB1] = .ok (.iconst (-1), [0xB1]) := eq_ok_of_toOption (by decide +kernel)
  obtain ⟨behind, short⟩ := each paddedIdleClass idleClass decoded
  exact ⟨decoded, behind [0x00] (by decide),
    short (paddedIdleClass.take 20) (paddedIdleClass.drop 20) (by decide) (List.take_append_drop 20 _),
    read, parts Instr Parser.instr .instr _ _ _ read [0x00]⟩

end Suspension.Container
