-- SUMMARY: The serialization of a draft, and that it is what the buffer of its objects comes to.
import HdClient.Pbc.Drafts

/-! # Serialization

The buffer of an object is completed by its sub-messages, each one under the tag
of its field and behind its length. -/

namespace Pbc

namespace Draft

/-- The serialization of the object at `i`; no more objects than there are can be
nested. -/
def serial (d : Draft) : ℕ → ℕ → List UInt8
  | 0, _ => []
  | fuel + 1, i => match d[i]? with
      | none => []
      | some n => n.bytes ++ n.subs.flatMap fun e => e.1.written (.lend (serial d fuel e.2))

/-- The serialization of the message. -/
def bytes (d : Draft) : List UInt8 := d.serial d.length 0

variable {env : Env} {root : Message} {d : Draft} {i j : ℕ} {n : Node}

theorem Sound.child (hn : d[i]? = some n) {e : Field × ℕ} (he : e ∈ n.subs) : d.Child i e.2 :=
  ⟨n, e, hn, he, rfl⟩

/-- There is nothing below the last object. -/
theorem Sound.serial_succ (h : d.Sound env root) {fuel : ℕ} (hfuel : d.length ≤ i + fuel) :
    d.serial (fuel + 1) i = d.serial fuel i := by
  induction fuel generalizing i with
  | zero =>
      have hnone : d[i]? = none := List.getElem?_eq_none hfuel
      simp only [serial, hnone]
  | succ fuel ih =>
      rw [serial, serial]
      split
      · rfl
      · rename_i n hn
        congr 1
        refine List.flatMap_congr fun e he => ?_
        have hlt := h.forest.lt _ _ (Sound.child hn he)
        rw [ih (by omega)]

/-- An object is serialized as its own records, and then those around its sub-messages. -/
theorem Sound.serial_eq (h : d.Sound env root) (hn : d[i]? = some n) :
    d.serial d.length i =
      n.bytes ++ n.subs.flatMap fun e => e.1.written (.lend (d.serial d.length e.2)) := by
  rw [← h.serial_succ (Nat.le_add_left _ _), serial, hn]

end Draft

/-! ## The buffer of a tree of objects -/

section Tree

variable {env : Env} {root : Message} {d : Draft} {h h' : WHeap} {i j : ℕ}

/-- The objects from `i` on downwards stand for their nodes. -/
structure WHeap.Below (h : WHeap) (d : Draft) (i : ℕ) : Prop where
  length_eq : h.length = d.length
  object : ∀ k, d.Desc i k → ∀ w n, h[k]? = some w → d[k]? = some n → w.Stands n

/-- Only the objects from `i` on downwards have changed. -/
structure WHeap.Framed (d : Draft) (i : ℕ) (h h' : WHeap) : Prop where
  length_eq : h'.length = h.length
  object : ∀ k, ¬ d.Desc i k → h'[k]? = h[k]?

/-- What `buffer` makes of an object, and where it is defined. -/
structure Buffers (d : Draft) (fuel : ℕ) (buffer : WHeap → ℕ → Option (List UInt8 × WHeap)) : Prop where
  serial : ∀ h i r, h.Below d i → buffer h i = some r →
    r.1 = d.serial fuel i ∧ r.1.length ≤ 2 ^ 30 ∧ WHeap.Framed d i h r.2
  defined : ∀ h i, h.Below d i → i < d.length → d.length ≤ i + fuel →
    (d.serial fuel i).length + 20 ≤ 2 ^ 30 → ∃ r, buffer h i = some r

/-- A record around a sub-message, as the library puts it together. -/
private theorem written_lend (f : Field) {s : List UInt8} (hs : s.length < 2 ^ 32) :
    Wmessage.tag f 2 ++ encode32 (BitVec.ofNat 32 s.length) ++ s = f.written (.lend s) := by
  have hlen : (BitVec.ofNat 32 s.length).toNat = s.length := by
    rw [BitVec.toNat_ofNat, Nat.mod_eq_of_lt hs]
  rw [encode32_eq, hlen, List.append_assoc]
  rfl

private theorem record_room {m m' : Wmessage} (f : Field) {s : List UInt8}
    (hm : m.Appended [] m') (hroom : m'.bytes.length + (20 + s.length) ≤ m'.cap) :
    m.Appended (f.written (.lend s))
      (m'.append (Wmessage.tag f 2 ++ encode32 (BitVec.ofNat 32 s.length) ++ s)) := by
  have hcap := hm.fits.cap.cap_le
  have htag := tag_length f 2
  have hword := encode32_length (BitVec.ofNat 32 s.length)
  have hdone := hm.append (Wmessage.tag f 2 ++ encode32 (BitVec.ofNat 32 s.length) ++ s) (by
    simp only [List.length_append]
    omega)
  rw [← written_lend f (by omega)]
  rwa [List.nil_append] at hdone

/-- The loop over the sub-messages `subs` that are left. -/
private theorem appendSubs_serial (hd : d.Sound env root) {fuel : ℕ}
    {buffer : WHeap → ℕ → Option (List UInt8 × WHeap)} (hbuffer : Buffers d fuel buffer)
    {subs : List (Field × ℕ)} (hchild : ∀ e ∈ subs, d.Child i e.2)
    (hnodup : (subs.map Prod.snd).Nodup) {w : WObject} (hlen : h.length = d.length)
    (hw : h[i]? = some w) (hfits : w.m.Fits) (hbelow : ∀ e ∈ subs, h.Below d e.2) :
    (∀ h', appendSubs buffer i subs h = some h' → WHeap.Framed d i h h' ∧
      ∃ w', h'[i]? = some w' ∧ w'.m.Fits ∧ w'.m.bytes =
        w.m.bytes ++ subs.flatMap fun e => e.1.written (.lend (d.serial fuel e.2))) ∧
    (d.length ≤ i + 1 + fuel → w.m.bytes.length +
        (subs.flatMap fun e => e.1.written (.lend (d.serial fuel e.2))).length + 20 ≤ 2 ^ 30 →
      ∃ h', appendSubs buffer i subs h = some h') := by
  induction subs generalizing h w with
  | nil =>
      refine ⟨fun h' hrun => ?_, fun _ _ => ⟨h, rfl⟩⟩
      cases hrun
      exact ⟨⟨rfl, fun _ _ => rfl⟩, w, hw, hfits, (List.append_nil _).symm⟩
  | cons e subs ih =>
      obtain ⟨f, j⟩ := e
      have hij : d.Child i j := hchild (f, j) List.mem_cons_self
      have hjbelow := hbelow (f, j) List.mem_cons_self
      rw [List.map_cons, List.nodup_cons] at hnodup
      obtain ⟨hfresh, hnodup⟩ := hnodup
      -- what is left to do once the sub-message at `j` has been appended
      have hrest : ∀ (h₁ : WHeap) (m' : Wmessage), WHeap.Framed d j h h₁ →
          w.m.Appended (f.written (.lend (d.serial fuel j))) m' →
          h₁[i]? = some w ∧ WHeap.Framed d i h (h₁.set i { w with m := m' }) ∧
            (h₁.set i { w with m := m' })[i]? = some { w with m := m' } ∧
            ∀ e ∈ subs, WHeap.Below (h₁.set i { w with m := m' }) d e.2 := by
        intro h₁ m' hframe happ
        have hw₁ : h₁[i]? = some w := by rw [hframe.object i (hd.forest.not_above hij), hw]
        refine ⟨hw₁, ⟨by rw [List.length_set, hframe.length_eq], fun k hk => ?_⟩,
          List.getElem?_set_self (List.getElem?_eq_some_iff.mp hw₁).1, fun e he =>
          ⟨by rw [List.length_set, hframe.length_eq, hlen], fun k hk v n hv hn => ?_⟩⟩
        · have hki : i ≠ k := fun heq => hk (heq ▸ .refl)
          rw [List.getElem?_set_ne hki]
          exact hframe.object k fun hjk => hk (Relation.ReflTransGen.head hij hjk)
        · have hie := hchild e (List.mem_cons_of_mem _ he)
          have hki : i ≠ k := fun heq => hd.forest.not_above hie (heq ▸ hk)
          have hne : e.2 ≠ j := fun heq => hfresh (List.mem_map.mpr ⟨e, he, heq⟩)
          rw [List.getElem?_set_ne hki, hframe.object k (hd.forest.disjoint hie hij hne hk)] at hv
          exact (hbelow e (List.mem_cons_of_mem _ he)).object k hk v n hv hn
      have hchild' : ∀ e ∈ subs, d.Child i e.2 := fun e he => hchild e (List.mem_cons_of_mem _ he)
      constructor
      · intro h' hrun
        obtain ⟨⟨s, h₁⟩, hcall, hrun⟩ := Option.bind_eq_some_iff.mp hrun
        obtain ⟨w₁, hw₁, hrun⟩ := Option.bind_eq_some_iff.mp hrun
        obtain ⟨m₁, hexpand, hrun⟩ := Option.bind_eq_some_iff.mp hrun
        obtain ⟨rfl, -, hframe⟩ := hbuffer.serial h j _ hjbelow hcall
        obtain rfl : w = w₁ := by
          rw [hframe.object i (hd.forest.not_above hij), hw] at hw₁
          exact Option.some.inj hw₁
        obtain ⟨hsame, hroom⟩ := hfits.expand hexpand
        have happ := record_room f hsame hroom
        obtain ⟨-, hframe', hat, hbelow'⟩ := hrest h₁ _ hframe happ
        obtain ⟨hframe'', w', hw', hfits', hbytes⟩ :=
          (ih hchild' hnodup (by rw [hframe'.length_eq, hlen]) hat happ.fits hbelow').1 h' hrun
        refine ⟨⟨hframe''.length_eq.trans hframe'.length_eq, fun k hk => ?_⟩, w', hw', hfits', ?_⟩
        · rw [hframe''.object k hk, hframe'.object k hk]
        · rw [hbytes, List.flatMap_cons, ← List.append_assoc]
          exact congrArg (· ++ _) happ.bytes_eq
      · intro hfuel hbound
        have hjlt := hd.forest.lt i j hij
        rw [List.flatMap_cons, List.length_append] at hbound
        dsimp only at hbound
        have hwritten : (d.serial fuel j).length ≤
            (f.written (.lend (d.serial fuel j))).length := by
          rw [Field.written, Wire.Payload.encode, List.length_append, List.length_append]
          omega
        obtain ⟨⟨s, h₁⟩, hcall⟩ := hbuffer.defined h j hjbelow (hd.bound i j hij) (by omega) (by omega)
        obtain ⟨rfl, -, hframe⟩ := hbuffer.serial h j _ hjbelow hcall
        obtain ⟨cap, hexpand, -, -⟩ := Wmessage.expand_eq hfits.cap (20 + (d.serial fuel j).length)
          (by omega)
        obtain ⟨hsame, hroom⟩ := hfits.expand hexpand
        have happ := record_room f hsame hroom
        obtain ⟨hw₁, hframe', hat, hbelow'⟩ := hrest h₁ _ hframe happ
        have hbytes : (w.m.bytes ++ f.written (.lend (d.serial fuel j))).length =
            w.m.bytes.length + (f.written (.lend (d.serial fuel j))).length := List.length_append
        obtain ⟨h', hrun⟩ := (ih hchild' hnodup (by rw [hframe'.length_eq, hlen]) hat happ.fits
          hbelow').2 hfuel (by rw [happ.bytes_eq, hbytes]; omega)
        refine ⟨h', ?_⟩
        simp only [appendSubs, hcall, hw₁, hexpand, Option.bind_eq_bind, Option.bind_some]
        exact hrun

theorem buffers_wmessageBufferAux (hd : d.Sound env root) (fuel : ℕ) :
    Buffers d fuel (wmessageBufferAux fuel) := by
  induction fuel with
  | zero =>
      refine ⟨fun h i r _ hcall => ?_, fun h i _ hi hfuel _ => ?_⟩
      · cases hcall
      · omega
  | succ fuel ih =>
      have hloop : ∀ (h : WHeap) (i : ℕ) w, h.Below d i → h[i]? = some w → ∃ n, d[i]? = some n ∧
          w.Stands n ∧
          (∀ h', appendSubs (wmessageBufferAux fuel) i w.sub h = some h' → WHeap.Framed d i h h' ∧
            ∃ w', h'[i]? = some w' ∧ w'.m.Fits ∧ w'.m.bytes = d.serial (fuel + 1) i) ∧
          (d.length ≤ i + 1 + fuel → (d.serial (fuel + 1) i).length + 20 ≤ 2 ^ 30 →
            ∃ h', appendSubs (wmessageBufferAux fuel) i w.sub h = some h') := by
        intro h i w hbelow hw
        have hi : i < d.length := hbelow.length_eq ▸ (List.getElem?_eq_some_iff.mp hw).1
        have hn := List.getElem?_eq_getElem hi
        have hwn := hbelow.object i .refl w _ hw hn
        have hserial : d.serial (fuel + 1) i = w.m.bytes ++
            w.sub.flatMap fun e => e.1.written (.lend (d.serial fuel e.2)) := by
          rw [Draft.serial, hn, hwn.bytes_eq, hwn.sub_eq]
        have hchild : ∀ e ∈ w.sub, d.Child i e.2 := fun e he =>
          Draft.Sound.child hn (hwn.sub_eq ▸ he)
        obtain ⟨hsome, htotal⟩ := appendSubs_serial hd ih hchild
          (hwn.sub_eq ▸ hd.nodup i _ hn) hbelow.length_eq hw hwn.fits fun e he =>
            ⟨hbelow.length_eq, fun k hk => hbelow.object k (.head (hchild e he) hk)⟩
        refine ⟨_, hn, hwn, fun h' hrun => ?_, fun hfuel hbound => ?_⟩
        · rw [hserial]
          exact hsome h' hrun
        · rw [hserial, List.length_append] at hbound
          exact htotal hfuel hbound
      refine ⟨fun h i r hbelow hcall => ?_, fun h i hbelow hi hfuel hbound => ?_⟩
      · obtain ⟨w, hw, hcall⟩ := Option.bind_eq_some_iff.mp hcall
        obtain ⟨n, hn, hwn, hsome, -⟩ := hloop h i w hbelow hw
        obtain ⟨hpacked, hset⟩ := hwn.pack hw
        simp only [hpacked, hset, Option.bind_eq_bind, Option.bind_some] at hcall
        obtain ⟨h', hrun, hcall⟩ := Option.bind_eq_some_iff.mp hcall
        obtain ⟨w', hw', hcall⟩ := Option.bind_eq_some_iff.mp hcall
        obtain ⟨hframe, w'', hw'', hfits, hbytes⟩ := hsome h' hrun
        obtain rfl := Option.some.inj (hw'.symm.trans hw'')
        cases hcall
        exact ⟨hbytes, Nat.le_trans hfits.le hfits.cap.cap_le, hframe⟩
      · have hw := List.getElem?_eq_getElem (hbelow.length_eq.symm ▸ hi : i < h.length)
        obtain ⟨n, hn, hwn, hsome, htotal⟩ := hloop h i _ hbelow hw
        obtain ⟨h', hrun⟩ := htotal (by omega) hbound
        obtain ⟨-, w', hw', -⟩ := hsome h' hrun
        obtain ⟨hpacked, hset⟩ := hwn.pack hw
        refine ⟨(w'.m.bytes, h'), ?_⟩
        simp only [wmessageBufferAux, hw, hpacked, hset, hrun, hw', Option.bind_eq_bind,
          Option.bind_some,
          Option.pure_def]

/-- The buffer of the objects that stand for a draft. -/
theorem WHeap.Stands.buffer (hd : d.Sound env root) (hs : h.Stands d) :
    (∀ bs h', wmessageBufferTree h = some (bs, h') → bs = d.bytes ∧ bs.length ≤ 2 ^ 30) ∧
      (d.bytes.length + 20 ≤ 2 ^ 30 → ∃ h', wmessageBufferTree h = some (d.bytes, h')) := by
  have hbelow : h.Below d 0 := ⟨hs.length_eq, fun k _ => hs.object k⟩
  have hbuffers := buffers_wmessageBufferAux hd h.length
  have hpos : 0 < d.length := by
    obtain ⟨n, hn, -⟩ := Option.map_eq_some_iff.mp hd.root
    exact (List.getElem?_eq_some_iff.mp hn).1
  have hserial : ∀ r, wmessageBufferTree h = some r → r.1 = d.bytes ∧ r.1.length ≤ 2 ^ 30 := by
    intro r hr
    rw [Draft.bytes, ← hs.length_eq]
    obtain ⟨hbytes, hlen, -⟩ := hbuffers.serial h 0 r hbelow hr
    exact ⟨hbytes, hlen⟩
  refine ⟨fun bs h' hr => hserial (bs, h') hr, fun hbound => ?_⟩
  rw [Draft.bytes, ← hs.length_eq] at hbound
  obtain ⟨⟨bs, h'⟩, hr⟩ := hbuffers.defined h 0 hbelow hpos (by have := hs.length_eq; omega) hbound
  refine ⟨h', ?_⟩
  rw [← (hserial _ hr).1]
  exact hr

end Tree

end Pbc
