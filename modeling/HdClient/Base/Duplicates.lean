-- SUMMARY: Tables that are given several entries under one key, and which of them a lookup returns.
import Mathlib.Data.List.Find
import HdClient.Base.ChainTable

/-! # Duplicate keys

A table with enough slots does not grow while it is filled, and an entry is put in
whether or not its key is there already. A lookup then returns the first entry of a
key if its home slot was free when it came, and the last one otherwise. Which slots
are taken follows from the order of the keys alone. -/

namespace ChainTable

variable {κ α : Type}

/-! ## Where an entry goes -/

/-- The slot that an entry goes to from `i` on, among `cap` slots: the first one that
is not taken, going round. -/
def seat (cap : ℕ) (taken : List ℕ) : ℕ → ℕ → ℕ
  | 0, i => i
  | fuel + 1, i => if i ∈ taken then seat cap taken fuel ((i + 1) % cap) else i

variable {hashOf : κ → ℕ} {t : ChainTable κ α} {taken : List ℕ}

theorem probe_eq_seat (h : t.WF hashOf) (htaken : ∀ j, t.Taken j ↔ j ∈ taken) (fuel i : ℕ) :
    t.probe fuel i = seat t.cap taken fuel i := by
  induction fuel generalizing i with
  | zero => rfl
  | succ fuel ih =>
      rw [probe, seat, h.and_cap, ih]
      exact if_congr (htaken i) rfl rfl

/-- Placing an entry takes one more slot. -/
theorem taken_place (h : t.WF hashOf) (hroom : t.size < t.cap)
    (htaken : ∀ j, t.Taken j ↔ j ∈ taken) (key : κ) (value : Option α) (j : ℕ) :
    (t.place key (hashOf key) value).1.Taken j ↔
      j ∈ seat t.cap taken (t.cap + 1) (hashOf key % t.cap) :: taken := by
  have hhome : t.home (hashOf key) = hashOf key % t.cap := h.and_cap _
  rw [List.mem_cons, ← htaken, seat, ← hhome]
  by_cases htH : t.Taken (t.home (hashOf key))
  · obtain ⟨e, he, -, -, hslot⟩ := slot_place_linked h hroom htH value
    rw [if_pos ((htaken _).mp htH), ← h.and_cap, ← probe_eq_seat h htaken, ← he]
    by_cases hjH : j = t.home (hashOf key)
    · subst hjH
      simp only [Taken, hslot, if_true, Slot.key_setNext]
      exact (or_iff_right_of_imp fun _ => htH).symm
    · by_cases hje : j = e
      · subst hje
        simp [Taken, hslot, hjH]
      · simp [Taken, hslot, hjH, hje]
  · rw [if_neg (mt (htaken _).mpr htH)]
    have hslot := slot_place_home (h.home_lt _) htH value
    by_cases hjH : j = t.home (hashOf key) <;> simp [Taken, hslot, hjH]

/-- An entry stays in its slot. -/
theorem slot_place_taken (h : t.WF hashOf) (hroom : t.size < t.cap) (key : κ) (value : Option α)
    {j : ℕ} (hj : t.Taken j) :
    ((t.place key (hashOf key) value).1.slot j).key = (t.slot j).key ∧
      ((t.place key (hashOf key) value).1.slot j).pointer = (t.slot j).pointer := by
  by_cases htH : t.Taken (t.home (hashOf key))
  · obtain ⟨e, -, hfree, -, hslot⟩ := slot_place_linked h hroom htH value
    have hje : j ≠ e := fun heq => hfree (heq ▸ hj)
    rw [hslot, if_neg hje]
    split
    · rename_i hjH
      exact ⟨congrArg (fun i => (t.slot i).key) hjH.symm,
        congrArg (fun i => (t.slot i).pointer) hjH.symm⟩
    · exact ⟨rfl, rfl⟩
  · have hjH : j ≠ t.home (hashOf key) := fun heq => htH (heq ▸ hj)
    rw [slot_place_home (h.home_lt _) htH value, if_neg hjH]
    exact ⟨rfl, rfl⟩

/-! ## Looking up after one more entry -/

variable [DecidableEq κ]

theorem query_of_chain (h : t.WF hashOf) {key : κ} {l : List ℕ}
    (hl : t.Chain (t.home (hashOf key)) l) :
    t.query key (hashOf key) =
      some ((l.find? fun j => (t.slot j).key = some key).bind fun i => (t.slot i).pointer) := by
  rw [query, walk_eq_find h.hash_eq key hl hl.length_le, Option.map_some]

/-- An entry in its home slot is the one that is found. -/
theorem query_home (h : t.WF hashOf) {key : κ}
    (hkey : (t.slot (t.home (hashOf key))).key = some key) :
    t.query key (hashOf key) = some (t.slot (t.home (hashOf key))).pointer := by
  obtain ⟨l, hl⟩ := h.chain (i := t.home (hashOf key)) (by simp [Taken, hkey])
  rw [query_of_chain h hl]
  cases hl <;> simp [hkey]

/-- Another key does not matter. -/
theorem query_place_ne (h : t.WF hashOf) (hroom : t.size < t.cap) {key k : κ} (hne : k ≠ key)
    (hhash : hashOf key ≠ 0) (value : Option α) :
    (t.place k (hashOf k) value).1.query key (hashOf key) = t.query key (hashOf key) := by
  have hplaced := place_spec h hroom k value
  have hmem : ∀ v, (key, v) ∈ (t.place k (hashOf k) value).1.entries ↔ (key, v) ∈ t.entries := by
    intro v
    rw [hplaced.entries.mem_iff, List.mem_cons, Prod.mk.injEq]
    exact or_iff_right fun heq => hne heq.1.symm
  by_cases hthere : t.Taken (t.home (hashOf key))
  swap
  · have hno : ∀ v, (key, v) ∉ t.entries := by
      intro v hv
      obtain ⟨i, hi, -⟩ := mem_entries.mp hv
      obtain ⟨l, hl, -⟩ := h.reach i (by simp [Taken, hi])
      rw [h.hash_eq i key hi] at hl
      exact hthere (hl.taken hl.head_mem)
    rw [query_of_absent h hhash hno,
      query_of_absent hplaced.wf hhash fun v hv => hno v ((hmem v).mp hv)]
  obtain ⟨l, hl⟩ := h.chain hthere
  have hcap := cap_place t k (hashOf k) value
  have hsame : ∀ j ∈ l, ((t.place k (hashOf k) value).1.slot j).key = (t.slot j).key ∧
      ((t.place k (hashOf k) value).1.slot j).pointer = (t.slot j).pointer := fun j hj =>
    slot_place_taken h hroom k value (hl.taken hj)
  -- the chain is the old one, or it has one more slot, which has another key
  obtain ⟨l', hl', hfind⟩ : ∃ l', (t.place k (hashOf k) value).1.Chain (t.home (hashOf key)) l' ∧
      l'.find? (fun j => ((t.place k (hashOf k) value).1.slot j).key = some key) =
        l.find? fun j => (t.slot j).key = some key := by
    by_cases htH : t.Taken (t.home (hashOf k))
    · obtain ⟨e, -, hfree, -, hslot⟩ := slot_place_linked h hroom htH value
      refine ⟨_, chain_place_linked hslot hfree htH hl, ?_⟩
      have he : ((t.place k (hashOf k) value).1.slot e).key ≠ some key := by
        have heH : e ≠ t.home (hashOf k) := fun heq => hfree (heq ▸ htH)
        rw [hslot, if_neg heH, if_pos rfl]
        simpa using hne
      rw [find?_linkBehind (by simpa using he)]
      exact List.find?_congr fun j hj => by rw [(hsame j hj).1]
    · have hslot := slot_place_home (h.home_lt _) htH value
      refine ⟨l, hl.congr fun j hj => ?_, List.find?_congr fun j hj => by rw [(hsame j hj).1]⟩
      rw [hslot, if_neg]
      rintro rfl
      exact htH (hl.taken hj)
  rw [query_of_chain hplaced.wf (home_congr hcap (hashOf key) ▸ hl'), query_of_chain h hl, hfind]
  cases hfound : l.find? fun j => (t.slot j).key = some key with
  | none => rfl
  | some j =>
      rw [Option.bind_some, Option.bind_some, (hsame j (List.mem_of_find?_eq_some hfound)).2]

/-- An entry that finds another one in its home slot is found in front of those before it. -/
theorem query_place_linked (h : t.WF hashOf) (hroom : t.size < t.cap) {key : κ}
    (htH : t.Taken (t.home (hashOf key)))
    (hne : (t.slot (t.home (hashOf key))).key ≠ some key) (value : Option α) :
    (t.place key (hashOf key) value).1.query key (hashOf key) = some value := by
  obtain ⟨l, hl⟩ := h.chain htH
  obtain ⟨e, -, hfree, -, hslot⟩ := slot_place_linked h hroom htH value
  have heH : e ≠ t.home (hashOf key) := fun heq => hfree (heq ▸ htH)
  have hkey : ((t.place key (hashOf key) value).1.slot e).key = some key := by
    rw [hslot, if_neg heH, if_pos rfl]
  have hpointer : ((t.place key (hashOf key) value).1.slot e).pointer = value := by
    rw [hslot, if_neg heH, if_pos rfl]
  have hhead := (slot_place_taken h hroom key value htH).1
  have hhome := home_congr (cap_place t key (hashOf key) value) (hashOf key)
  rw [query_of_chain (place_spec h hroom key value).wf
    (hhome.symm ▸ chain_place_linked hslot hfree htH hl)]
  cases hl <;> simp [linkBehind, hhome, hhead, hne, hkey, hpointer]

/-! ## Filling -/

/-- Put in entries, one after the other. -/
def insertAll (hashOf : κ → ℕ) (t : ChainTable κ α) : List (κ × α) → ChainTable κ α
  | [] => t
  | (k, a) :: es => insertAll hashOf (t.insertAt k (hashOf k) (some a)).1 es

/-- The last value under `key`, or `a` if there is none. -/
def latest (key : κ) (a : α) (es : List (κ × α)) : α :=
  es.foldl (fun last e => if e.1 = key then e.2 else last) a

/-- What is found under `key` among `cap` slots, of which some are taken, when the
entries have been put in: the first value, if it came to its home slot, or the last. -/
def kept (cap : ℕ) (hashOf : κ → ℕ) (key : κ) : List ℕ → List (κ × α) → Option α
  | _, [] => none
  | taken, (k, a) :: es =>
      if k = key then
        if hashOf key % cap ∈ taken then some (latest key a es) else some a
      else kept cap hashOf key (seat cap taken (cap + 1) (hashOf k % cap) :: taken) es

/-! ## What is kept -/

variable {cap : ℕ} {key : κ} {es : List (κ × α)} {a b : α}

theorem latest_mem (key : κ) (a : α) (es : List (κ × α)) :
    (key, latest key a es) ∈ (key, a) :: es := by
  induction es generalizing a with
  | nil => exact List.mem_cons_self
  | cons e es ih =>
      rw [latest, List.foldl_cons, ← latest]
      split
      · rename_i heq
        have hmem := ih e.2
        rw [← heq] at hmem ⊢
        exact List.mem_cons_of_mem _ hmem
      · rcases List.mem_cons.mp (ih a) with heq | hmem
        · exact heq ▸ List.mem_cons_self
        · exact List.mem_cons_of_mem _ (List.mem_cons_of_mem _ hmem)

theorem kept_mem (h : kept cap hashOf key taken es = some a) : (key, a) ∈ es := by
  induction es generalizing taken with
  | nil => cases h
  | cons e es ih =>
      rw [kept] at h
      split at h
      · rename_i heq
        obtain ⟨k, b⟩ := e
        obtain rfl : k = key := heq
        split at h
        · exact Option.some.inj h ▸ latest_mem k b es
        · exact Option.some.inj h ▸ List.mem_cons_self
      · exact List.mem_cons_of_mem _ (ih h)

theorem kept_eq_none (h : kept cap hashOf key taken es = none) (a : α) : (key, a) ∉ es := by
  induction es generalizing taken with
  | nil => simp
  | cons e es ih =>
      rw [kept] at h
      split at h
      · split at h <;> cases h
      · rename_i hne
        refine fun hmem => (List.mem_cons.mp hmem).elim (fun heq => hne ?_) (ih h)
        rw [← heq]

/-- Entries that correspond, one by one, are kept alike. -/
theorem kept_rel {β : Type} {r : α → β → Prop} {es' : List (κ × β)} (cap : ℕ) (hashOf : κ → ℕ)
    (key : κ) (taken : List ℕ)
    (h : List.Forall₂ (fun e e' => e.1 = e'.1 ∧ r e.2 e'.2) es es') :
    Option.Rel r (kept cap hashOf key taken es) (kept cap hashOf key taken es') := by
  have hlatest : ∀ {es : List (κ × α)} {es' : List (κ × β)} {a : α} {b : β},
      List.Forall₂ (fun e e' => e.1 = e'.1 ∧ r e.2 e'.2) es es' → r a b →
      r (latest key a es) (latest key b es') := by
    intro es es' a b h hab
    induction h generalizing a b with
    | nil => exact hab
    | cons he _ ih =>
        simp only [latest, List.foldl_cons, he.1] at ih ⊢
        split
        · exact ih he.2
        · exact ih hab
  induction h generalizing taken with
  | nil => exact .none
  | cons he hes ih =>
      rw [kept, kept, he.1]
      split
      · split
        · exact .some (hlatest hes he.2)
        · exact .some he.2
      · exact ih _

/-! ## Filling a table -/

omit [DecidableEq κ] in
private theorem insertAt_room (hroom : t.size < t.cap) (key : κ) (hash : ℕ) (value : Option α) :
    t.insertAt key hash value = t.place key hash value := if_pos hroom

/-- The first entry stays in its home slot. -/
theorem query_insertAll_home {es : List (κ × α)} {key : κ} {v : Option α} (h : t.WF hashOf)
    (hroom : t.size + es.length ≤ t.cap)
    (hkey : (t.slot (t.home (hashOf key))).key = some key)
    (hpointer : (t.slot (t.home (hashOf key))).pointer = v) :
    (insertAll hashOf t es).query key (hashOf key) = some v := by
  induction es generalizing t with
  | nil =>
      rw [insertAll, query_home h hkey, hpointer]
  | cons e es ih =>
      rw [List.length_cons] at hroom
      have hsame := slot_place_taken h (by omega) e.1 (some e.2)
        (j := t.home (hashOf key)) (by simp [Taken, hkey])
      have hcap := cap_place t e.1 (hashOf e.1) (some e.2)
      rw [insertAll, insertAt_room (by omega)]
      refine ih (place_spec h (by omega) e.1 (some e.2)).wf ?_ ?_ ?_
      · rw [size_place, hcap]
        omega
      · rw [home_congr hcap, hsame.1, hkey]
      · rw [home_congr hcap, hsame.2, hpointer]

/-- Behind a home slot with another key, the last entry is found. -/
theorem query_insertAll_linked {es : List (κ × α)} {key : κ} {a : α} (h : t.WF hashOf)
    (hroom : t.size + es.length ≤ t.cap) (hhash : hashOf key ≠ 0)
    (htH : t.Taken (t.home (hashOf key)))
    (hne : (t.slot (t.home (hashOf key))).key ≠ some key)
    (hquery : t.query key (hashOf key) = some (some a)) :
    (insertAll hashOf t es).query key (hashOf key) = some (some (latest key a es)) := by
  induction es generalizing t a with
  | nil => exact hquery
  | cons e es ih =>
      rw [List.length_cons] at hroom
      have hsame := (slot_place_taken h (by omega) e.1 (some e.2) htH).1
      have hcap := cap_place t e.1 (hashOf e.1) (some e.2)
      rw [insertAll, insertAt_room (by omega)]
      refine ih (place_spec h (by omega) e.1 (some e.2)).wf ?_ ?_ ?_ ?_
      · rw [size_place, hcap]
        omega
      · rw [home_congr hcap, Taken, hsame]
        exact htH
      · rw [home_congr hcap, hsame]
        exact hne
      · by_cases heq : e.1 = key
        · obtain ⟨k, b⟩ := e
          obtain rfl : k = key := heq
          simpa using query_place_linked h (by omega) htH hne (some b)
        · simpa [heq, hquery] using query_place_ne h (by omega) heq hhash (some e.2)

/-- What a lookup returns after a table without the key has been filled. -/
theorem query_insertAll {es : List (κ × α)} {key : κ} (h : t.WF hashOf)
    (hroom : t.size + es.length ≤ t.cap) (hhash : hashOf key ≠ 0)
    (htaken : ∀ j, t.Taken j ↔ j ∈ taken) (hno : ∀ v, (key, v) ∉ t.entries) :
    (insertAll hashOf t es).query key (hashOf key) = some (kept t.cap hashOf key taken es) := by
  induction es generalizing t taken with
  | nil => exact query_of_absent h hhash hno
  | cons e es ih =>
      obtain ⟨k, a⟩ := e
      rw [List.length_cons] at hroom
      have hplaced := place_spec h (by omega) k (some a)
      have hcap := cap_place t k (hashOf k) (some a)
      have hroom' : (t.place k (hashOf k) (some a)).1.size + es.length ≤
          (t.place k (hashOf k) (some a)).1.cap := by
        rw [size_place, hcap]
        omega
      have hhome := home_congr hcap (hashOf key)
      rw [insertAll, insertAt_room (by omega), kept]
      by_cases hk : k = key
      · subst hk
        have hmod : t.home (hashOf k) = hashOf k % t.cap := h.and_cap _
        rw [if_pos rfl, ← hmod]
        by_cases htH : t.Taken (t.home (hashOf k))
        · have hother : (t.slot (t.home (hashOf k))).key ≠ some k := fun heq =>
            hno _ (mem_entries.mpr ⟨_, heq, rfl⟩)
          have hsame := (slot_place_taken h (by omega) k (some a) htH).1
          rw [if_pos ((htaken _).mp htH)]
          refine query_insertAll_linked hplaced.wf hroom' hhash ?_ ?_
            (query_place_linked h (by omega) htH hother (some a))
          · rw [hhome, Taken, hsame]
            exact htH
          · rw [hhome, hsame]
            exact hother
        · have hslot := slot_place_home (h.home_lt _) htH (some a) (t.home (hashOf k))
          rw [if_pos rfl] at hslot
          rw [if_neg (mt (htaken _).mpr htH)]
          refine query_insertAll_home hplaced.wf hroom' ?_ ?_ <;> rw [hhome, hslot]
      · have hno' : ∀ v, (key, v) ∉ (t.place k (hashOf k) (some a)).1.entries := by
          intro v hv
          rw [hplaced.entries.mem_iff, List.mem_cons, Prod.mk.injEq] at hv
          exact hv.elim (fun heq => hk heq.1.symm) (hno v)
        have hih := ih hplaced.wf hroom' (taken_place h (by omega) htaken k (some a)) hno'
        rw [hcap] at hih
        rw [if_neg hk, hih]

/-- What a lookup returns after an empty table has been filled. -/
theorem query_insertAll_empty {es : List (κ × α)} {k : ℕ} (hroom : es.length ≤ 2 ^ k) {key : κ}
    (hhash : hashOf key ≠ 0) :
    (insertAll hashOf (empty (2 ^ k)) es).query key (hashOf key) =
      some (kept (2 ^ k) hashOf key [] es) := by
  have hroom' : (empty (2 ^ k) : ChainTable κ α).size + es.length ≤
      (empty (2 ^ k) : ChainTable κ α).cap := by
    rw [cap_empty]
    exact (Nat.zero_add es.length).symm ▸ hroom
  have hquery := query_insertAll (wf_empty hashOf k) hroom' hhash
    (fun j => iff_of_false (not_taken_empty _ j) List.not_mem_nil) (by simp)
  rwa [cap_empty] at hquery

end ChainTable
