import BytecodeFold.Proofs.ConstantPool.Indexing

/-!
# References read back as they were written

A member reference is a chain of six entries. Adding one interns each of them, so some may stand in
the pool already, and one may serve twice. Once the chain is there, every lookup along it succeeds,
and adding it again finds all of it. No later call can change that, for calls only append.
-/

namespace BytecodeFold.ConstantPool

variable {pool grown : ConstantPool} {entry : Entry} {index : UInt16}
  {owner name descriptor : String} {reference : UInt16 → UInt16 → Entry}

/-! ## Calls on several entries -/

theorem andThen_eq_ok {added : Except Error UInt16 × ConstantPool}
    {next : UInt16 → ConstantPool → Except Error UInt16 × ConstantPool} :
    andThen added next = (.ok index, grown) ↔
      ∃ first mid, added = (.ok first, mid) ∧ next first mid = (.ok index, grown) := by
  obtain ⟨outcome, pool⟩ := added
  constructor
  · intro h
    cases outcome with
    | error e => cases h
    | ok first => exact ⟨first, pool, rfl, h⟩
  · rintro ⟨first, mid, ha, hnext⟩
    cases ha
    exact hnext

/-- Interns a reference to a member of either kind with its owner, name and descriptor. -/
def addMember (reference : UInt16 → UInt16 → Entry) (pool : ConstantPool)
    (owner name descriptor : String) : Except Error UInt16 × ConstantPool :=
  andThen (pool.addClass owner) fun ownerIndex pool =>
    andThen (pool.addNameAndType name descriptor) fun memberIndex pool =>
      pool.intern (reference ownerIndex memberIndex)

theorem addMethodRef_eq : pool.addMethodRef = addMember .methodRef pool := rfl

theorem addFieldRef_eq : pool.addFieldRef = addMember .fieldRef pool := rfl

/-- What one entry that was interned leaves behind. -/
structure Interned (pool grown : ConstantPool) (entry : Entry) (index : UInt16) : Prop where
  built : grown.Built
  leading : pool.slots.toList <+: grown.slots.toList
  first : grown.FirstAt entry index

theorem interned_of_intern (built : pool.Built) (h : pool.intern entry = (.ok index, grown)) :
    pool.Interned grown entry index := by
  have hgrown := built.intern entry
  have hleading := slots_apply_leading pool (.intern entry)
  rw [h] at hgrown
  rw [apply, h] at hleading
  exact ⟨hgrown, hleading, firstAt_of_intern built.count_le h⟩

theorem addClass_eq_ok (built : pool.Built) (h : pool.addClass owner = (.ok index, grown)) :
    ∃ text, pool.Interned grown (.classRef text) index ∧ grown.FirstAt (.utf8 owner) text := by
  obtain ⟨text, mid, htext, hclass⟩ := andThen_eq_ok.mp h
  have ht := interned_of_intern built htext
  have hc := interned_of_intern ht.built hclass
  exact ⟨text, ⟨hc.built, ht.leading.trans hc.leading, hc.first⟩, ht.first.mono hc.leading⟩

theorem addNameAndType_eq_ok (built : pool.Built)
    (h : pool.addNameAndType name descriptor = (.ok index, grown)) :
    ∃ nameText descriptorText, pool.Interned grown (.nameAndType nameText descriptorText) index ∧
      grown.FirstAt (.utf8 name) nameText ∧ grown.FirstAt (.utf8 descriptor) descriptorText := by
  obtain ⟨nameText, mid, hname, h⟩ := andThen_eq_ok.mp h
  obtain ⟨descriptorText, mid', hdescriptor, hpair⟩ := andThen_eq_ok.mp h
  have hn := interned_of_intern built hname
  have hd := interned_of_intern hn.built hdescriptor
  have hp := interned_of_intern hd.built hpair
  exact ⟨nameText, descriptorText,
    ⟨hp.built, (hn.leading.trans hd.leading).trans hp.leading, hp.first⟩,
    hn.first.mono (hd.leading.trans hp.leading), hd.first.mono hp.leading⟩

/-! ## Chains -/

/-- Where the entries that lead from a member reference to its texts stand. -/
structure Places where
  ownerText : UInt16
  owner : UInt16
  name : UInt16
  descriptor : UInt16
  nameAndType : UInt16

/-- The chain of a member reference, each entry at the first index that holds it. -/
structure Chain (pool : ConstantPool) (reference : UInt16 → UInt16 → Entry)
    (owner name descriptor : String) (index : UInt16) (places : Places) : Prop where
  ownerText : pool.FirstAt (.utf8 owner) places.ownerText
  owner : pool.FirstAt (.classRef places.ownerText) places.owner
  name : pool.FirstAt (.utf8 name) places.name
  descriptor : pool.FirstAt (.utf8 descriptor) places.descriptor
  nameAndType : pool.FirstAt (.nameAndType places.name places.descriptor) places.nameAndType
  reference : pool.FirstAt (reference places.owner places.nameAndType) index

theorem chain_of_addMember (built : pool.Built)
    (h : addMember reference pool owner name descriptor = (.ok index, grown)) :
    ∃ places, grown.Chain reference owner name descriptor index places := by
  obtain ⟨ownerIndex, mid, howner, h⟩ := andThen_eq_ok.mp h
  obtain ⟨pairIndex, mid', hpair, hreference⟩ := andThen_eq_ok.mp h
  obtain ⟨ownerText, ho, hot⟩ := addClass_eq_ok built howner
  obtain ⟨nameText, descriptorText, hp, hnt, hdt⟩ := addNameAndType_eq_ok ho.built hpair
  have hr := interned_of_intern hp.built hreference
  exact ⟨⟨ownerText, ownerIndex, nameText, descriptorText, pairIndex⟩, {
    ownerText := hot.mono (hp.leading.trans hr.leading)
    owner := ho.first.mono (hp.leading.trans hr.leading)
    name := hnt.mono hr.leading
    descriptor := hdt.mono hr.leading
    nameAndType := hp.first.mono hr.leading
    reference := hr.first }⟩

theorem entry_of_get? (h : pool.get? index = some entry) : pool.entry index = .ok entry := by
  rw [ConstantPool.entry, h]

theorem utf8_of_get? {text : String} (h : pool.get? index = some (.utf8 text)) :
    pool.utf8 index = .ok text := by
  rw [utf8, entry_of_get? h]
  rfl

namespace Chain

variable {places : Places}

theorem mono (chain : pool.Chain reference owner name descriptor index places)
    (leading : pool.slots.toList <+: grown.slots.toList) :
    grown.Chain reference owner name descriptor index places where
  ownerText := chain.ownerText.mono leading
  owner := chain.owner.mono leading
  name := chain.name.mono leading
  descriptor := chain.descriptor.mono leading
  nameAndType := chain.nameAndType.mono leading
  reference := chain.reference.mono leading

theorem className (chain : pool.Chain reference owner name descriptor index places) :
    pool.className places.owner = .ok owner := by
  rw [ConstantPool.className, entry_of_get? chain.owner.get?]
  exact utf8_of_get? chain.ownerText.get?

theorem member (chain : pool.Chain reference owner name descriptor index places)
    (h : ∀ owner pair, (reference owner pair).nameAndType? = some pair) :
    pool.member index = .ok (name, descriptor) := by
  rw [ConstantPool.member, entry_of_get? chain.reference.get?, Outcome.ok_bind, h]
  simp only [entry_of_get? chain.nameAndType.get?, Outcome.ok_bind,
    utf8_of_get? chain.name.get?, utf8_of_get? chain.descriptor.get?]
  rfl

/-- Adding the reference once more finds every entry of the chain. -/
theorem addMember (chain : pool.Chain reference owner name descriptor index places) :
    addMember reference pool owner name descriptor = (.ok index, pool) := by
  have howner : pool.addClass owner = (.ok places.owner, pool) :=
    andThen_eq_ok.mpr ⟨_, _, chain.ownerText.intern, chain.owner.intern⟩
  have hpair : pool.addNameAndType name descriptor = (.ok places.nameAndType, pool) :=
    andThen_eq_ok.mpr ⟨_, _, chain.name.intern,
      andThen_eq_ok.mpr ⟨_, _, chain.descriptor.intern, chain.nameAndType.intern⟩⟩
  exact andThen_eq_ok.mpr ⟨_, _, howner,
    andThen_eq_ok.mpr ⟨_, _, hpair, chain.reference.intern⟩⟩

end Chain

/-! ## Lookups after any calls -/

/-- The reference at an index leads to its owner, whose index this is, its name and its
descriptor. -/
structure ReadsBack (pool : ConstantPool) (reference : UInt16 → UInt16 → Entry)
    (index ownerIndex : UInt16) (owner name descriptor : String) : Prop where
  member : pool.member index = .ok (name, descriptor)
  memberDescriptor : pool.memberDescriptor index = .ok descriptor
  refers : ∃ pairIndex, pool.get? index = some (reference ownerIndex pairIndex)
  className : pool.className ownerIndex = .ok owner

theorem Chain.readsBack {places : Places}
    (chain : pool.Chain reference owner name descriptor index places)
    (h : ∀ owner pair, (reference owner pair).nameAndType? = some pair) :
    pool.ReadsBack reference index places.owner owner name descriptor where
  member := chain.member h
  memberDescriptor := by
    rw [memberDescriptor, chain.member h]
    rfl
  refers := ⟨_, chain.reference.get?⟩
  className := chain.className

theorem readsBack_of_addMember (built : pool.Built)
    (hreference : ∀ owner pair, (reference owner pair).nameAndType? = some pair)
    (h : addMember reference pool owner name descriptor = (.ok index, grown)) :
    ∃ ownerIndex, ∀ later,
      (grown.run later).ReadsBack reference index ownerIndex owner name descriptor ∧
      addMember reference (grown.run later) owner name descriptor =
        (.ok index, grown.run later) := by
  obtain ⟨places, chain⟩ := chain_of_addMember built h
  refine ⟨places.owner, fun later => ?_⟩
  have chain' := chain.mono (slots_run_leading grown later)
  exact ⟨chain'.readsBack hreference, chain'.addMember⟩

/-- Whatever calls came before, a reference or a number that could be added reads back as it was
written, whatever calls come after; and adding the reference again gives the same index and leaves
the pool alone. -/
theorem references_read_back (before : List Call) :
    (∀ owner name descriptor index grown,
      (empty.run before).addMethodRef owner name descriptor = (.ok index, grown) →
      ∃ ownerIndex, ∀ later,
        (grown.run later).ReadsBack .methodRef index ownerIndex owner name descriptor ∧
        (grown.run later).addMethodRef owner name descriptor = (.ok index, grown.run later)) ∧
    (∀ owner name descriptor index grown,
      (empty.run before).addFieldRef owner name descriptor = (.ok index, grown) →
      ∃ ownerIndex, ∀ later,
        (grown.run later).ReadsBack .fieldRef index ownerIndex owner name descriptor ∧
        (grown.run later).addFieldRef owner name descriptor = (.ok index, grown.run later)) ∧
    (∀ number index grown, (empty.run before).addNumber number = (.ok index, grown) → ∀ later,
      (grown.run later).number index = .ok number) := by
  have built : (empty.run before).Built := Built.empty.run before
  refine ⟨?_, ?_, ?_⟩
  · intro owner name descriptor index grown h
    rw [addMethodRef_eq] at h
    exact readsBack_of_addMember built (fun _ _ => rfl) h
  · intro owner name descriptor index grown h
    rw [addFieldRef_eq] at h
    exact readsBack_of_addMember built (fun _ _ => rfl) h
  · intro number index grown h later
    have hnumber := (interned_of_intern built h).first.mono (slots_run_leading grown later)
    exact number_of_get? hnumber.get?

/-- A method whose owner and name share one text, of which the pool held two copies. -/
def selfNamed : ConstantPool :=
  ⟨#[none, some (.utf8 "A"), some (.utf8 "A"), some (.classRef 1), some (.utf8 "()V"),
    some (.nameAndType 1 4), some (.methodRef 3 5)]⟩

theorem references_read_back_selfNamed :
    (empty.run [.push (.utf8 "A"), .push (.utf8 "A")]).addMethodRef "A" "A" "()V" =
      (.ok 6, selfNamed) ∧
    (selfNamed.run [.push (.utf8 "A"), .addFieldRef "A" "A" "()V"]).member 6 =
      .ok ("A", "()V") := by
  have hadded : (empty.run [.push (.utf8 "A"), .push (.utf8 "A")]).addMethodRef "A" "A" "()V" =
      (.ok 6, selfNamed) := by
    decide +kernel
  obtain ⟨ownerIndex, hreads⟩ := (references_read_back _).1 "A" "A" "()V" 6 selfNamed hadded
  exact ⟨hadded, (hreads _).1.member⟩

end BytecodeFold.ConstantPool
