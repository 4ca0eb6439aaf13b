import NlinkLab.Data.Json

/-! Serialization of values and records, as the derived `Serialize`
implementations do it: an optional field is `null` or skipped, a record is the
object of its fields, a map is an object. A value is recovered from what it
serializes to. -/

namespace NlinkLab.Json

/-- Types with a serialized form. -/
class Serialize (α : Type) where
  toValue : α → Value

export Serialize (toValue)

/-- The serialized form determines the value. -/
class LawfulSerialize (α : Type) [Serialize α] : Prop where
  inj : Function.Injective (toValue : α → Value)

/-- The serialized form is never `null`, so that an optional field tells its
absence from its values. -/
class NonNull (α : Type) [Serialize α] : Prop where
  ne_null (x : α) : toValue x ≠ .null

/-- Types that serialize to an object's key. -/
class ObjectKey (K : Type) where
  key : K → String
  inj : Function.Injective key

variable {α β : Type} [Serialize α] [Serialize β]

@[simp] theorem toValue_inj [LawfulSerialize α] {x y : α} : toValue x = toValue y ↔ x = y :=
  LawfulSerialize.inj.eq_iff

/-! ### Values -/

instance : Serialize String := ⟨.str⟩
instance : LawfulSerialize String := ⟨fun _ _ h => by simpa [toValue] using h⟩
instance : NonNull String := ⟨nofun⟩

instance : Serialize Bool := ⟨.bool⟩
instance : LawfulSerialize Bool := ⟨fun _ _ h => by simpa [toValue] using h⟩
instance : NonNull Bool := ⟨nofun⟩

instance : Serialize UInt8 := ⟨fun n => .num n.toNat⟩
instance : LawfulSerialize UInt8 := ⟨fun _ _ h => UInt8.toNat_inj.mp (by simpa [toValue] using h)⟩
instance : NonNull UInt8 := ⟨nofun⟩

instance : Serialize UInt16 := ⟨fun n => .num n.toNat⟩
instance : LawfulSerialize UInt16 :=
  ⟨fun _ _ h => UInt16.toNat_inj.mp (by simpa [toValue] using h)⟩
instance : NonNull UInt16 := ⟨nofun⟩

instance : Serialize UInt32 := ⟨fun n => .num n.toNat⟩
instance : LawfulSerialize UInt32 :=
  ⟨fun _ _ h => UInt32.toNat_inj.mp (by simpa [toValue] using h)⟩
instance : NonNull UInt32 := ⟨nofun⟩

instance : Serialize UInt64 := ⟨fun n => .num n.toNat⟩
instance : LawfulSerialize UInt64 :=
  ⟨fun _ _ h => UInt64.toNat_inj.mp (by simpa [toValue] using h)⟩
instance : NonNull UInt64 := ⟨nofun⟩

instance : Serialize (List α) := ⟨fun l => .arr (l.map toValue)⟩
instance [LawfulSerialize α] : LawfulSerialize (List α) :=
  ⟨fun _ _ h => List.map_injective_iff.mpr LawfulSerialize.inj (by simpa [toValue] using h)⟩
instance : NonNull (List α) := ⟨nofun⟩

instance : Serialize (α × β) := ⟨fun p => .arr [toValue p.1, toValue p.2]⟩
instance [LawfulSerialize α] [LawfulSerialize β] : LawfulSerialize (α × β) where
  inj := by
    rintro ⟨a, b⟩ ⟨c, d⟩ h
    obtain ⟨ha, hb⟩ : toValue a = toValue c ∧ toValue b = toValue d := by
      simpa only [Serialize.toValue, Value.arr.injEq, List.cons.injEq, and_true] using h
    rw [LawfulSerialize.inj ha, LawfulSerialize.inj hb]
instance : NonNull (α × β) := ⟨nofun⟩

instance : Serialize (Option α) := ⟨fun o => o.elim .null toValue⟩
instance [LawfulSerialize α] [NonNull α] : LawfulSerialize (Option α) where
  inj := by
    rintro (_ | x) (_ | y) h
    · rfl
    · exact absurd h.symm (NonNull.ne_null y)
    · exact absurd h (NonNull.ne_null x)
    · exact congrArg some (LawfulSerialize.inj h)

instance : ObjectKey String := ⟨id, Function.injective_id⟩
instance : ObjectKey UInt16 :=
  ⟨fun k => toString k.toNat, fun _ _ h => UInt16.toNat_inj.mp (Nat.repr_injective h)⟩

instance {K : Type} [Ord K] [Std.TransOrd K] [Std.LawfulEqOrd K] [ObjectKey K] :
    Serialize (BTreeMap K α) :=
  ⟨fun m => .obj (m.toList.map fun p => (ObjectKey.key p.1, toValue p.2))⟩

instance {K : Type} [Ord K] [Std.TransOrd K] [Std.LawfulEqOrd K] [ObjectKey K] [LawfulSerialize α] :
    LawfulSerialize (BTreeMap K α) where
  inj m m' h := by
    have hinj : Function.Injective fun p : K × α => (ObjectKey.key p.1, toValue p.2) := by
      rintro ⟨k, x⟩ ⟨l, y⟩ h
      obtain ⟨hk, hx⟩ := Prod.mk.inj h
      exact Prod.ext (ObjectKey.inj hk) (LawfulSerialize.inj hx)
    have hl : m.toList = m'.toList :=
      List.map_injective_iff.mpr hinj (by simpa [toValue] using h)
    exact Std.ExtTreeMap.ext_toList (hl ▸ List.Perm.refl _)

instance {K : Type} [Ord K] [Std.TransOrd K] [Std.LawfulEqOrd K] [ObjectKey K] :
    NonNull (BTreeMap K α) := ⟨nofun⟩

/-! ### Records -/

/-- A record: the serialized names of its fields, and each field's value. -/
class Record (α : Type) where
  names : List String
  fields : α → List Field

export Record (fields)

/-- The fields of a record are named apart and determine it. -/
class LawfulRecord (α : Type) [Record α] : Prop where
  names_eq (x : α) : (fields x).map (·.1) = Record.names α
  nodup : (Record.names α).Nodup
  inj (x y : α) : fields x = fields y → x = y

/-- A field that is always written. -/
def field (k : String) (x : β) : Field := (k, some (toValue x))

/-- An optional field that is skipped when absent. -/
def skipNone (k : String) (o : Option β) : Field := (k, o.map toValue)

/-- A field that is skipped when it has its default `d`. -/
def skipIf [DecidableEq β] (d : β) (k : String) (x : β) : Field :=
  (k, if x = d then none else some (toValue x))

section Fields

variable {k : String}

@[simp] theorem field_fst (x : β) : (field k x).1 = k := rfl

@[simp] theorem skipNone_fst (o : Option β) : (skipNone k o).1 = k := rfl

@[simp] theorem skipIf_fst [DecidableEq β] (d x : β) : (skipIf d k x).1 = k := rfl

variable [LawfulSerialize β]

@[simp] theorem field_snd_inj {x y : β} : (field k x).2 = (field k y).2 ↔ x = y := by
  simp [field]

@[simp] theorem skipNone_snd_inj {x y : Option β} :
    (skipNone k x).2 = (skipNone k y).2 ↔ x = y :=
  (Option.map_injective LawfulSerialize.inj).eq_iff

@[simp] theorem skipIf_snd_inj [DecidableEq β] {d x y : β} :
    (skipIf d k x).2 = (skipIf d k y).2 ↔ x = y := by
  unfold skipIf
  split_ifs with hx hy hy
  · simp [hx, hy]
  · simpa [hx] using fun h => hy h.symm
  · simpa [hy] using hx
  · simp

@[simp] theorem field_inj {x y : β} : field k x = field k y ↔ x = y := by
  simp [field]

@[simp] theorem skipNone_inj {x y : Option β} : skipNone k x = skipNone k y ↔ x = y := by
  rw [Prod.ext_iff, skipNone_snd_inj]; simp

@[simp] theorem skipIf_inj [DecidableEq β] {d x y : β} : skipIf d k x = skipIf d k y ↔ x = y := by
  rw [Prod.ext_iff, skipIf_snd_inj]; simp

end Fields

section Record

variable {ρ : Type} [Record ρ]

/-- A record serializes to the object of its fields. -/
instance (priority := low) : Serialize ρ := ⟨fun x => .obj (object (fields x))⟩

instance (priority := low) [LawfulRecord ρ] : LawfulSerialize ρ where
  inj x y h := by
    have hk : (fields x).map (·.1) = (fields y).map (·.1) :=
      (LawfulRecord.names_eq x).trans (LawfulRecord.names_eq y).symm
    have hn : ((fields x).map (·.1)).Nodup := LawfulRecord.names_eq x ▸ LawfulRecord.nodup
    exact LawfulRecord.inj x y ((object_inj hk hn).mp (by simpa [toValue] using h))

instance (priority := low) : NonNull ρ := ⟨nofun⟩

/-- Nothing but skipped fields changed between two values of one record type
exactly when every other field is equal. -/
theorem changedFields_fields [LawfulRecord ρ] (x y : ρ) (skip : List String) :
    changedFields (object (fields x)) (object (fields y)) skip = [] ↔
      List.Forall₂ (fun f g => f.1 ∈ skip ∨ f.2 = g.2) (fields x) (fields y) :=
  changedFields_object ((LawfulRecord.names_eq x).trans (LawfulRecord.names_eq y).symm)
    (LawfulRecord.names_eq x ▸ LawfulRecord.nodup)

end Record

/-! ### Enumerations -/

/-- A variant with one unnamed field. -/
def newtypeVariant (tag : String) (x : β) : Value := .obj [(tag, toValue x)]

@[simp] theorem newtypeVariant_inj [LawfulSerialize β] {s t : String} {x y : β} :
    newtypeVariant s x = newtypeVariant t y ↔ s = t ∧ x = y := by
  simp [newtypeVariant]

theorem newtypeVariant_ne {s t : String} (h : s ≠ t) (x : α) (y : β) :
    newtypeVariant s x ≠ newtypeVariant t y := by
  simp [newtypeVariant, h]

/-- A variant with named fields: an object of its tag alone. -/
def variant (tag : String) (fs : List Field) : Value := .obj [(tag, .obj (object fs))]

theorem variant_inj {tag : String} {fs gs : List Field} (hk : fs.map (·.1) = gs.map (·.1))
    (hn : (fs.map (·.1)).Nodup) : variant tag fs = variant tag gs ↔ fs = gs := by
  simp [variant, object_inj hk hn]

theorem variant_ne {s t : String} (h : s ≠ t) (fs gs : List Field) :
    variant s fs ≠ variant t gs := by
  simp [variant, h]

theorem variant_ne_newtypeVariant {s t : String} (h : s ≠ t) (fs : List Field) (x : β) :
    variant s fs ≠ newtypeVariant t x := by
  simp [variant, newtypeVariant, h]

theorem newtypeVariant_ne_variant {s t : String} (h : s ≠ t) (fs : List Field) (x : β) :
    newtypeVariant s x ≠ variant t fs := by
  simp [variant, newtypeVariant, h]

end NlinkLab.Json
