-- SUMMARY: What any calls on a message under construction leave: objects that stand for a draft, and from them its serialization.
import HdClient.Base.Forest
import HdClient.Pbc.Bootstrap
import HdClient.Pbc.Building

/-! # Drafts

Whatever calls were made on the objects of a message, and in whatever order, the
objects stand for the draft that the calls mean, and their buffers were always
large enough. -/

namespace Pbc

/-- The elements of a list of which one has changed. -/
private theorem getElem?_set_cases {α : Type} {l : List α} {i k : ℕ} {a b : α}
    (h : (l.set i a)[k]? = some b) : (k = i ∧ b = a) ∨ (k ≠ i ∧ l[k]? = some b) := by
  by_cases hk : k = i
  · subst hk
    rw [List.getElem?_set_self'] at h
    obtain ⟨w, -, hw⟩ := Option.map_eq_some_iff.mp h
    exact .inl ⟨rfl, hw.symm⟩
  · rw [List.getElem?_set_ne (Ne.symm hk)] at h
    exact .inr ⟨hk, h⟩

private theorem set_of_getElem? {α : Type} {l : List α} {i : ℕ} {a : α} (h : l[i]? = some a) :
    l.set i a = l := by
  obtain ⟨hi, rfl⟩ := List.getElem?_eq_some_iff.mp h
  exact List.set_getElem_self hi

/-! ## Well-formed drafts -/

namespace Draft

/-- The bytes of what was put into an object. -/
def Node.bytes (n : Node) : List UInt8 := n.puts.flatMap fun e => e.1.written e.2

/-- The object at `j` is a sub-message of the one at `i`. -/
def Child (d : Draft) (i j : ℕ) : Prop := ∃ n e, d[i]? = some n ∧ e ∈ n.subs ∧ e.2 = j

abbrev Desc (d : Draft) : ℕ → ℕ → Prop := Relation.ReflTransGen d.Child

/-- The field was found under some name, and can be written. -/
def Node.Knows (n : Node) (f : Field) : Prop :=
  f.label ≠ .packed ∧ ∃ key, n.type.queryName key = some (some f)

/-- The field takes payloads like this one. -/
def Suits (f : Field) (p : Wire.Payload) : Prop :=
  (∃ low hi, f.type.payload low hi = some p) ∨
    (f.type = .enum ∧ ∃ v : BitVec 32, p = .varint (v.setWidth 64)) ∨
    ((f.type = .string ∨ f.type = .bytes) ∧ ∃ body, p = .lend body)

/-- A draft of a message of type `root`: its objects form a tree, every one is of
the type of the field that it is under, and every payload suits its field. -/
structure Sound (env : Env) (root : Message) (d : Draft) : Prop where
  root : d[0]?.map Node.type = some root
  puts : ∀ (i : ℕ) n, d[i]? = some n → ∀ e ∈ n.puts, n.Knows e.1 ∧ Suits e.1 e.2
  subs : ∀ (i : ℕ) n, d[i]? = some n → ∀ e ∈ n.subs, (∃ key, n.type.queryName key = some (some e.1)) ∧
    ∃ t m, e.1.type_name = .m (some t) ∧ env.messages[t]? = some m ∧ d[e.2]?.map Node.type = some m
  forest : Forest d.Child
  bound : ∀ i j, d.Child i j → j < d.length
  nodup : ∀ (i : ℕ) n, d[i]? = some n → (n.subs.map Prod.snd).Nodup

variable {env : Env} {root : Message} {d : Draft} {i j k : ℕ}

theorem sound_start (env : Env) (root : Message) : (start root).Sound env root := by
  have hnode : ∀ (i : ℕ) n, (start root)[i]? = some n → n = ⟨root, [], []⟩ := by
    intro i n h
    have hmem := List.mem_of_getElem? h
    rwa [start, List.mem_singleton] at hmem
  have hno : ∀ i j, ¬ (start root).Child i j := by
    rintro i j ⟨n, e, hn, he, -⟩
    rw [hnode i n hn] at he
    cases he
  exact {
    root := rfl
    puts := fun i n hn e he => by
      rw [hnode i n hn] at he
      cases he
    subs := fun i n hn e he => by
      rw [hnode i n hn] at he
      cases he
    forest := ⟨fun i j h => absurd h (hno i j), fun i i' j h => absurd h (hno i j)⟩
    bound := fun i j h => absurd h (hno i j)
    nodup := fun i n hn => by rw [hnode i n hn]; exact List.nodup_nil }

private theorem type_set {n : Node} (n' : Node) (hn : d[i]? = some n) (htype : n'.type = n.type)
    (k : ℕ) :
    (d.set i n')[k]?.map Node.type = d[k]?.map Node.type := by
  by_cases hk : k = i
  · subst hk
    rw [List.getElem?_set_self (List.getElem?_eq_some_iff.mp hn).1, hn]
    simp [htype]
  · rw [List.getElem?_set_ne (Ne.symm hk)]

private theorem child_set {n : Node} (n' : Node) (hn : d[i]? = some n)
    (hsubs : n'.subs = n.subs) : Child (d.set i n') = d.Child := by
  funext a b
  refine propext ⟨?_, ?_⟩
  · rintro ⟨m, e, hm, he, rfl⟩
    rcases getElem?_set_cases hm with ⟨rfl, rfl⟩ | ⟨-, hm⟩
    · exact ⟨n, e, hn, hsubs ▸ he, rfl⟩
    · exact ⟨m, e, hm, he, rfl⟩
  · rintro ⟨m, e, hm, he, rfl⟩
    by_cases ha : a = i
    · subst ha
      obtain rfl := Option.some.inj (hn.symm.trans hm)
      exact ⟨n', e, List.getElem?_set_self (List.getElem?_eq_some_iff.mp hn).1, hsubs ▸ he, rfl⟩
    · exact ⟨m, e, by rwa [List.getElem?_set_ne (Ne.symm ha)], he, rfl⟩

/-- A payload that suits its field is put into an object. -/
private theorem Sound.addPut (h : d.Sound env root) {n : Node} (hn : d[i]? = some n) {f : Field}
    {p : Wire.Payload} (hknows : n.Knows f) (hsuits : Suits f p) :
    Sound env root (d.set i { n with puts := n.puts ++ [(f, p)] }) := by
  have hchild := child_set { n with puts := n.puts ++ [(f, p)] } hn rfl
  have htype := type_set { n with puts := n.puts ++ [(f, p)] } hn rfl
  refine ⟨(htype 0).trans h.root, fun k m hm e he => ?_, fun k m hm e he => ?_, hchild ▸ h.forest,
    fun a b hab => ?_, fun k m hm => ?_⟩
  · rcases getElem?_set_cases hm with ⟨rfl, rfl⟩ | ⟨-, hm⟩
    · rcases List.mem_append.mp he with he | he
      · exact h.puts k n hn e he
      · obtain rfl := List.mem_singleton.mp he
        exact ⟨hknows, hsuits⟩
    · exact h.puts k m hm e he
  · rw [htype]
    rcases getElem?_set_cases hm with ⟨rfl, rfl⟩ | ⟨-, hm⟩
    · exact h.subs k n hn e he
    · exact h.subs k m hm e he
  · rw [hchild] at hab
    simpa using h.bound a b hab
  · rcases getElem?_set_cases hm with ⟨rfl, rfl⟩ | ⟨-, hm⟩
    · exact h.nodup k n hn
    · exact h.nodup k m hm

/-- A new object is put under a field. -/
private theorem Sound.addSub (h : d.Sound env root) {n : Node} (hn : d[i]? = some n) {f : Field}
    {key : CStr} (hf : n.type.queryName key = some (some f)) {t : ℕ} {type : Message}
    (hname : f.type_name = .m (some t)) (ht : env.messages[t]? = some type) :
    Sound env root (d.set i { n with subs := n.subs ++ [(f, d.length)] } ++ [⟨type, [], []⟩]) := by
  have hi := (List.getElem?_eq_some_iff.mp hn).1
  have hlen : (d.set i { n with subs := n.subs ++ [(f, d.length)] }).length = d.length := by simp
  -- the nodes afterwards are the changed one, the new one, and the others
  have hnode : ∀ {k : ℕ} {m : Node},
      (d.set i { n with subs := n.subs ++ [(f, d.length)] } ++ [⟨type, [], []⟩])[k]? = some m →
      (k = i ∧ m = { n with subs := n.subs ++ [(f, d.length)] }) ∨ (k ≠ i ∧ d[k]? = some m) ∨
        (k = d.length ∧ m = ⟨type, [], []⟩) := by
    intro k m hm
    by_cases hk : k < d.length
    · rw [List.getElem?_append_left (by omega)] at hm
      rcases getElem?_set_cases hm with hm | hm
      · exact .inl hm
      · exact .inr (.inl hm)
    · have hklt := (List.getElem?_eq_some_iff.mp hm).1
      simp only [List.length_append, List.length_cons, List.length_nil, hlen] at hklt
      obtain rfl : k = d.length := by omega
      rw [List.getElem?_append_right (by omega), hlen, Nat.sub_self] at hm
      exact .inr (.inr ⟨rfl, (Option.some.inj hm).symm⟩)
  have hold : ∀ {k : ℕ}, k < d.length →
      (d.set i { n with subs := n.subs ++ [(f, d.length)] } ++ [⟨type, [], []⟩])[k]?.map Node.type =
        d[k]?.map Node.type := by
    intro k hk
    rw [List.getElem?_append_left (by omega)]
    exact type_set { n with subs := n.subs ++ [(f, d.length)] } hn rfl k
  have hnew : (d.set i { n with subs := n.subs ++ [(f, d.length)] } ++
      [⟨type, [], []⟩])[d.length]?.map Node.type = some type := by
    rw [List.getElem?_append_right (by omega), hlen, Nat.sub_self]
    rfl
  have hkeep : ∀ {k : ℕ} {m : Message}, d[k]?.map Node.type = some m →
      (d.set i { n with subs := n.subs ++ [(f, d.length)] } ++ [⟨type, [], []⟩])[k]?.map Node.type =
        some m := by
    intro k m hm
    obtain ⟨w, hw, -⟩ := Option.map_eq_some_iff.mp hm
    rw [hold (List.getElem?_eq_some_iff.mp hw).1, hm]
  have hchild : ∀ {a b : ℕ},
      Child (d.set i { n with subs := n.subs ++ [(f, d.length)] } ++ [⟨type, [], []⟩]) a b →
      d.Child a b ∨ (a = i ∧ b = d.length) := by
    rintro a b ⟨m, e, hm, he, rfl⟩
    rcases hnode hm with ⟨rfl, rfl⟩ | ⟨-, hm⟩ | ⟨-, rfl⟩
    · rcases List.mem_append.mp he with he | he
      · exact .inl ⟨n, e, hn, he, rfl⟩
      · obtain rfl := List.mem_singleton.mp he
        exact .inr ⟨rfl, rfl⟩
    · exact .inl ⟨m, e, hm, he, rfl⟩
    · cases he
  have hfresh : ∀ a, ¬ d.Child a d.length := fun a ha => Nat.lt_irrefl _ (h.bound a _ ha)
  refine ⟨?_, fun k m hm e he => ?_, fun k m hm e he => ?_, ⟨fun a b hab => ?_,
    fun a a' b hab hab' => ?_⟩, fun a b hab => ?_, fun k m hm => ?_⟩
  · exact hkeep h.root
  · rcases hnode hm with ⟨rfl, rfl⟩ | ⟨-, hm⟩ | ⟨-, rfl⟩
    · exact h.puts k n hn e he
    · exact h.puts k m hm e he
    · cases he
  · rcases hnode hm with ⟨rfl, rfl⟩ | ⟨-, hm⟩ | ⟨-, rfl⟩
    · rcases List.mem_append.mp he with he | he
      · obtain ⟨hkey, t', m', hname', ht', hsub⟩ := h.subs k n hn e he
        exact ⟨hkey, t', m', hname', ht', hkeep hsub⟩
      · obtain rfl := List.mem_singleton.mp he
        exact ⟨⟨key, hf⟩, t, type, hname, ht, hnew⟩
    · obtain ⟨hkey, t', m', hname', ht', hsub⟩ := h.subs k m hm e he
      exact ⟨hkey, t', m', hname', ht', hkeep hsub⟩
    · cases he
  · rcases hchild hab with hab | ⟨rfl, rfl⟩
    · exact h.forest.lt a b hab
    · exact hi
  · rcases hchild hab with hold₁ | ⟨ha, hb⟩
    · rcases hchild hab' with hold₂ | ⟨-, hb⟩
      · exact h.forest.unique a a' b hold₁ hold₂
      · exact absurd (hb ▸ hold₁) (hfresh a)
    · rcases hchild hab' with hold₂ | ⟨ha', -⟩
      · exact absurd (hb ▸ hold₂) (hfresh a')
      · rw [ha, ha']
  · simp only [List.length_append, List.length_cons, List.length_nil, hlen]
    rcases hchild hab with hab | ⟨-, rfl⟩
    · exact Nat.lt_succ_of_lt (h.bound a b hab)
    · exact Nat.lt_succ_self _
  · rcases hnode hm with ⟨rfl, rfl⟩ | ⟨-, hm⟩ | ⟨-, rfl⟩
    · simp only [List.map_append, List.map_cons, List.map_nil]
      refine List.Nodup.append (h.nodup k n hn) (List.nodup_singleton _) fun b hb hb' => ?_
      obtain rfl := List.mem_singleton.mp hb'
      obtain ⟨e, he, hb⟩ := List.mem_map.mp hb
      exact hfresh k ⟨n, e, hn, he, hb⟩
    · exact h.nodup k m hm
    · exact List.nodup_nil

/-- What is put into an object under some key suits the field, if there is one. -/
theorem Sound.put (h : d.Sound env root) {n : Node} (hn : d[i]? = some n) {key : CStr}
    {p : Field → Option Wire.Payload}
    (hput : ∀ f, n.type.queryName key = some (some f) →
      f.label ≠ .packed ∧ ∀ q, p f = some q → Suits f q) :
    (d.put i key p).Sound env root := by
  rw [Draft.put, hn]
  dsimp only
  split
  · rename_i f hf
    obtain ⟨hlabel, hsuits⟩ := hput f hf
    split
    · rename_i q hq
      exact h.addPut hn ⟨hlabel, key, hf⟩ (hsuits q hq)
    · exact h
  · exact h

theorem Sound.nest (h : d.Sound env root) (i : ℕ) (key : CStr) : (d.nest env i key).Sound env root := by
  rw [Draft.nest]
  split
  · exact h
  · rename_i n hn
    split
    · rename_i f hf
      split
      · rename_i t hname
        split
        · rename_i type ht
          exact h.addSub hn hf hname ht
        · exact h
      · exact h
    · exact h

end Draft

theorem suits_payload {f : Field} {low hi : BitVec 32} {p : Wire.Payload}
    (h : f.type.payload low hi = some p) : Draft.Suits f p := .inl ⟨low, hi, h⟩

theorem suits_stringPayload {env : Env} {v : List UInt8} {len : ℤ} {f : Field} {p : Wire.Payload}
    (h : stringPayload env v len f = some p) : Draft.Suits f p := by
  obtain ⟨len', -, h⟩ := Option.bind_eq_some_iff.mp h
  cases htype : f.type with
  | string =>
      rw [htype] at h
      cases h
      exact .inr (.inr ⟨.inl htype, _, rfl⟩)
  | bytes =>
      rw [htype] at h
      cases h
      exact .inr (.inr ⟨.inr htype, _, rfl⟩)
  | enum =>
      rw [htype] at h
      dsimp only at h
      split at h
      · obtain ⟨e, -, h⟩ := Option.bind_eq_some_iff.mp h
        obtain ⟨found, -, h⟩ := Option.bind_eq_some_iff.mp h
        obtain ⟨id, -, h⟩ := Option.bind_eq_some_iff.mp h
        cases h
        exact .inr (.inl ⟨htype, _, rfl⟩)
      · cases h
  | double | float | int64 | uint64 | int32 | fixed64 | fixed32 | bool | group | message | uint32
  | sfixed32 | sfixed64 | sint32 | sint64 | other =>
      rw [htype] at h
      cases h

/-! ## Objects that stand for a draft -/

/-- The object holds the bytes of the node, in a buffer that is large enough. -/
structure WObject.Stands (w : WObject) (n : Draft.Node) : Prop where
  type_eq : w.m.type = n.type
  bytes_eq : w.m.bytes = n.bytes
  packed_eq : w.m.packed = none
  fits : w.m.Fits
  sub_eq : w.sub = n.subs

structure WHeap.Stands (h : WHeap) (d : Draft) : Prop where
  length_eq : h.length = d.length
  object : ∀ (i : ℕ) w n, h[i]? = some w → d[i]? = some n → w.Stands n

theorem stands_new (type : Message) : WObject.Stands ⟨.new type, []⟩ ⟨type, [], []⟩ where
  type_eq := rfl
  bytes_eq := rfl
  packed_eq := rfl
  fits := Wmessage.fits_new type
  sub_eq := rfl

/-- An object without packed fields is not changed by the loop over them. -/
theorem WObject.Stands.pack {h : WHeap} {i : ℕ} {w : WObject} {n : Draft.Node} (hwn : w.Stands n)
    (hw : h[i]? = some w) : w.m.pack = some w.m ∧ h.set i ⟨w.m, w.sub⟩ = h :=
  ⟨by rw [Wmessage.pack, hwn.packed_eq], set_of_getElem? hw⟩

namespace WHeap.Stands

variable {env : Env} {root : Message} {h h' : WHeap} {d : Draft} {i : ℕ} {w : WObject} {n : Draft.Node}

theorem node (hs : Stands h d) (hw : h[i]? = some w) : ∃ n, d[i]? = some n ∧ w.Stands n := by
  have hi : i < d.length := hs.length_eq ▸ (List.getElem?_eq_some_iff.mp hw).1
  exact ⟨d[i], List.getElem?_eq_getElem hi, hs.object i w _ hw (List.getElem?_eq_getElem hi)⟩

theorem set (hs : Stands h d) {w' : WObject} {n' : Draft.Node} (hw' : w'.Stands n') :
    Stands (h.set i w') (d.set i n') where
  length_eq := by rw [List.length_set, List.length_set, hs.length_eq]
  object k v m hv hm := by
    rcases getElem?_set_cases hv with hv | hv <;>
      rcases getElem?_set_cases hm with hm | hm
    · obtain ⟨-, rfl⟩ := hv
      obtain ⟨-, rfl⟩ := hm
      exact hw'
    · exact absurd hv.1 hm.1
    · exact absurd hm.1 hv.1
    · exact hs.object k v m hv.2 hm.2

theorem concat (hs : Stands h d) (hw : w.Stands n) : Stands (h ++ [w]) (d ++ [n]) where
  length_eq := by simp [hs.length_eq]
  object k v m hv hm := by
    by_cases hk : k < h.length
    · rw [List.getElem?_append_left hk] at hv
      rw [List.getElem?_append_left (hs.length_eq ▸ hk)] at hm
      exact hs.object k v m hv hm
    · rw [List.getElem?_append_right (by omega)] at hv
      rw [List.getElem?_append_right (by have := hs.length_eq; omega), ← hs.length_eq] at hm
      have hzero : k - h.length = 0 := by
        have hlt := (List.getElem?_eq_some_iff.mp hv).1
        simpa using hlt
      rw [hzero] at hv hm
      cases hv
      cases hm
      exact hw

/-- What a call appends is put into the node. -/
theorem put (hs : Stands h d) (hn : d[i]? = some n) (hwn : w.Stands n) {key : CStr}
    {f : Field} {p : Field → Option Wire.Payload} {m' : Wmessage}
    (hf : n.type.queryName key = some (some f)) (hm' : w.m.Appended (f.writtenOpt (p f)) m') :
    Stands (h.set i { w with m := m' }) (d.put i key p) := by
  have hput : ∀ n' : Draft.Node, n'.type = n.type → n'.subs = n.subs →
      n'.bytes = n.bytes ++ f.writtenOpt (p f) → Stands (h.set i { w with m := m' }) (d.set i n') := by
    intro n' htype hsubs hbytes
    exact hs.set ⟨by rw [htype, ← hwn.type_eq]; exact hm'.type_eq,
      by rw [hbytes, ← hwn.bytes_eq]; exact hm'.bytes_eq, hm'.packed_eq.trans hwn.packed_eq,
      hm'.fits, hsubs ▸ hwn.sub_eq⟩
  simp only [Draft.put, hn, hf]
  cases hp : p f with
  | none =>
      have hsame := hput n rfl rfl (by rw [hp]; exact (List.append_nil _).symm)
      rwa [set_of_getElem? hn] at hsame
  | some q =>
      refine hput { n with puts := n.puts ++ [(f, q)] } rfl rfl ?_
      rw [hp, Draft.Node.bytes, List.flatMap_append, List.flatMap_singleton]
      rfl

/-- A key that the type lacks changes nothing. -/
theorem put_missing (hs : Stands h d) (hw : h[i]? = some w) (hn : d[i]? = some n) {key : CStr}
    {p : Field → Option Wire.Payload} (hf : n.type.queryName key = some none) :
    Stands (h.set i { w with m := w.m }) (d.put i key p) := by
  simp only [Draft.put, hn, hf]
  exact (set_of_getElem? hw).symm ▸ hs

end WHeap.Stands

section Runs

variable {env : Env} {root : Message} {h h' : WHeap} {d : Draft}

/-- One call. -/
theorem WHeap.Stands.run (hd : d.Sound env root) (hs : h.Stands d) {c : WCall}
    (hplain : c.Plain h) (hrun : c.run env h = some h') :
    (c.mean env d).Sound env root ∧ h'.Stands (c.mean env d) := by
  cases c with
  | integer i key low hi =>
      obtain ⟨w, hw, hrun⟩ := Option.bind_eq_some_iff.mp hrun
      obtain ⟨⟨code, m'⟩, hcall, hrun⟩ := Option.bind_eq_some_iff.mp hrun
      cases hrun
      obtain ⟨n, hn, hwn⟩ := hs.node hw
      have hmissing : n.type.queryName key = some none → m' = w.m := by
        intro hf
        rw [wmessageInteger, hwn.type_eq, hf] at hcall
        cases hcall
        rfl
      have happends : ∀ f, n.type.queryName key = some (some f) →
          f.label ≠ .packed ∧ w.m.Appended (f.writtenOpt (f.type.payload low hi)) m' := by
        intro f hf
        have hlabel := hplain w hw (some f) (hwn.type_eq ▸ hf) f rfl
        exact ⟨hlabel, wmessageInteger_appends (hwn.type_eq ▸ hf) hlabel hwn.fits hcall⟩
      constructor
      · exact hd.put hn fun f hf => ⟨(happends f hf).1, fun q hq => suits_payload hq⟩
      · rcases hkey : n.type.queryName key with _ | _ | f
        · rw [wmessageInteger, hwn.type_eq, hkey] at hcall
          cases hcall
        · rw [hmissing hkey]
          exact hs.put_missing hw hn hkey
        · exact hs.put (p := fun f => f.type.payload low hi) hn hwn hkey (happends f hkey).2
  | string i key v len =>
      obtain ⟨w, hw, hrun⟩ := Option.bind_eq_some_iff.mp hrun
      obtain ⟨⟨code, m'⟩, hcall, hrun⟩ := Option.bind_eq_some_iff.mp hrun
      cases hrun
      obtain ⟨n, hn, hwn⟩ := hs.node hw
      have hmissing : n.type.queryName key = some none → m' = w.m := by
        intro hf
        rw [wmessageString, hwn.type_eq, hf] at hcall
        cases hcall
        rfl
      have happends : ∀ f, n.type.queryName key = some (some f) →
          f.label ≠ .packed ∧ w.m.Appended (f.writtenOpt (stringPayload env v len f)) m' := by
        intro f hf
        have hlabel := hplain w hw (some f) (hwn.type_eq ▸ hf) f rfl
        exact ⟨hlabel, wmessageString_appends (hwn.type_eq ▸ hf) hlabel hwn.fits hcall⟩
      constructor
      · exact hd.put hn fun f hf => ⟨(happends f hf).1, fun q hq => suits_stringPayload hq⟩
      · rcases hkey : n.type.queryName key with _ | _ | f
        · rw [wmessageString, hwn.type_eq, hkey] at hcall
          cases hcall
        · rw [hmissing hkey]
          exact hs.put_missing hw hn hkey
        · exact hs.put (p := stringPayload env v len) hn hwn hkey (happends f hkey).2
  | message i key =>
      obtain ⟨⟨p, h''⟩, hcall, hrun⟩ := Option.bind_eq_some_iff.mp hrun
      cases hrun
      refine ⟨hd.nest i key, ?_⟩
      obtain ⟨w, hw, hcall⟩ := Option.bind_eq_some_iff.mp hcall
      obtain ⟨found, hfound, hcall⟩ := Option.bind_eq_some_iff.mp hcall
      obtain ⟨n, hn, hwn⟩ := hs.node hw
      rw [hwn.type_eq] at hfound
      cases found with
      | none =>
          cases hcall
          simp only [WCall.mean, Draft.nest, hn, hfound]
          exact hs
      | some f =>
          dsimp only at hcall
          split at hcall
          · rename_i t hname
            obtain ⟨type, ht, hcall⟩ := Option.bind_eq_some_iff.mp hcall
            cases hcall
            simp only [WCall.mean, Draft.nest, hn, hfound, hname, ht]
            refine (hs.set ?_).concat (stands_new type)
            exact ⟨hwn.type_eq, hwn.bytes_eq, hwn.packed_eq, hwn.fits, by rw [hwn.sub_eq, hs.length_eq]⟩
          · cases hcall

/-- Whatever is called, the objects form a tree of the right types, and each one
holds the records of what was put into it, in a buffer that is large enough. -/
theorem WRun.stands {cs : List WCall} (hrun : WRun env root cs h d) :
    d.Sound env root ∧ h.Stands d := by
  induction hrun with
  | new =>
      refine ⟨Draft.sound_start env root, rfl, fun i w n hw hn => ?_⟩
      obtain rfl := List.mem_singleton.mp (List.mem_of_getElem? hw)
      obtain rfl := List.mem_singleton.mp (List.mem_of_getElem? hn)
      exact stands_new root
  | call _ hplain hcall ih => exact ih.2.run ih.1 hplain hcall

variable (env) in
/-- Calls that all succeed, none of them on a packed field. -/
def runPlain : List WCall → WHeap → Option WHeap
  | [], h => some h
  | c :: cs, h =>
      if c.Plain h then do
        let h ← c.run env h
        runPlain cs h
      else none

theorem WRun.calls {cs cs' : List WCall} (hrun : WRun env root cs h d)
    (hcalls : runPlain env cs' h = some h') :
    WRun env root (cs ++ cs') h' (cs'.foldl (fun d c => c.mean env d) d) := by
  induction cs' generalizing cs h d with
  | nil =>
      cases hcalls
      rwa [List.append_nil]
  | cons c cs' ih =>
      rw [runPlain] at hcalls
      split at hcalls
      · rename_i hplain
        obtain ⟨h₁, hcall, hcalls⟩ := Option.bind_eq_some_iff.mp hcalls
        have hall := ih (hrun.call hplain hcall) hcalls
        rwa [List.append_assoc] at hall
      · cases hcalls

/-- The calls that build an enum with two values, of which the second one is empty. -/
def enumCalls : List WCall :=
  [.string 0 (lit "name") (lit "E" ++ [0]) 0, .message 0 (lit "value"),
    .integer 1 (lit "number") 7 0, .message 0 (lit "value")]

def enumDraft (p : Env) (m : Message) : Draft :=
  enumCalls.foldl (fun d c => c.mean p d) (Draft.start m)

/-- A new environment, its type of enums, and the objects that the calls leave. -/
def enumNew : Option (Env × Message × WHeap) := do
  let p ← pbcNew
  let i ← getMessage p (lit "google.protobuf.EnumDescriptorProto")
  let m ← p.messages[← i]?
  let h ← runPlain p enumCalls [⟨.new m, []⟩]
  pure (p, m, h)

theorem enumNew_isSome : enumNew.isSome = true := by decide +kernel

theorem enumNew_run {p : Env} {m : Message} (h : enumNew = some (p, m, h')) : pbcNew = some p ∧
    Registered p (lit "google.protobuf.EnumDescriptorProto") m ∧
    WRun p m enumCalls h' (enumDraft p m) := by
  unfold enumNew at h
  simp only [Option.bind_eq_bind, Option.bind_eq_some_iff] at h
  obtain ⟨p', hnew, found, hfound, i, rfl, m', hm, h'', hcalls, h⟩ := h
  cases h
  exact ⟨hnew, ⟨i, hfound, hm⟩, WRun.new.calls hcalls⟩

end Runs

end Pbc
