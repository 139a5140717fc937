import HashComp.Requests.Model

namespace HashComp.Requests

open HashComp.Faster
open HashComp.Disk (Sound Stored Misses Newest)

variable {K : Type} {L : Layout K} {s s' s'' : Store K} {key : K} {a b slot : Nat}
  {e : HashBucketEntry} {m : Option Nat}

structure Grows (s s' : Store K) : Prop where
  begin : s'.beginAddress = s.beginAddress
  log : ∀ a r, s.log a = some r →
    ∃ r', s'.log a = some r' ∧ r'.key = r.key ∧ r'.previousAddress = r.previousAddress

theorem Grows.of_same (hbegin : s'.beginAddress = s.beginAddress) (hlog : s'.log = s.log) :
    Grows s s' where
  begin := hbegin
  log := by
    intro a r hr
    refine ⟨r, ?_, rfl, rfl⟩
    rw [hlog]
    exact hr

theorem Grows.of_change {touched : Option Nat} (h : Disk.Change s s' touched) : Grows s s' where
  begin := h.begin
  log := h.log

theorem Grows.misses (h : Grows s s') (hm : Misses s key a b) : Misses s' key a b := by
  refine hm.map fun c r hr hne => ?_
  obtain ⟨r', hr', hkey, hprev⟩ := h.log c r hr
  exact ⟨r', hr', hkey ▸ hne, hprev⟩

theorem Grows.newest (h : Grows s s') (hn : Newest s key a m) : Newest s' key a m := by
  cases hn with
  | found hm hb hr hkey =>
      obtain ⟨r', hr', hkey', -⟩ := h.log _ _ hr
      refine .found (h.misses hm) ?_ hr' (hkey'.trans hkey)
      rw [h.begin]
      exact hb
  | absent hm hb =>
      refine .absent (h.misses hm) ?_
      rw [h.begin]
      exact hb

theorem Grows.of_construct {r : Record K} (hs : Sound s) :
    Grows s (constructRecord s (blockAllocate s) r) where
  begin := rfl
  log := by
    intro a r' hr'
    exact ⟨r', (Function.update_of_ne (Disk.ne_blockAllocate hs hr') ..).trans hr', rfl, rfl⟩

section Accesses

theorem HasRecord.stored (h : HasRecord s a = true) : Stored s a := by
  intro hle
  rw [HasRecord, Bool.or_eq_true, decide_eq_true_eq] at h
  rcases h with hlt | hsome
  · omega
  · exact Option.isSome_iff_exists.mp hsome

theorem sound_exchange (hs : Sound s) (he : InSlot (s.buckets b) slot e) (ha : Stored s a) :
    Sound (setBucket s b ((s.buckets b).set slot (some ⟨a, e.tag, false⟩))) := by
  refine hs.setBucket ((hs.settled b).replace he rfl rfl) fun i e' he' => ?_
  rcases (inSlot_set_iff he.lt_length).mp he' with ⟨-, heq⟩ | ⟨-, he'⟩
  · cases heq
    exact ha
  · exact hs.entries b i e' he'

theorem sound_erase (hs : Sound s) (hslot : slot < (s.buckets b).length) :
    Sound (setBucket s b ((s.buckets b).set slot none)) := by
  refine hs.setBucket ((hs.settled b).erase hslot) fun i e he => ?_
  rcases (inSlot_set_iff hslot).mp he with ⟨-, heq⟩ | ⟨-, he⟩
  · cases heq
  · exact hs.entries b i e he

theorem access_spec {x : Access K} (hs : Sound s) (h : access L s x = some s') :
    Sound s' ∧ Grows s s' := by
  cases x with
  | findOrCreateEntry key =>
      obtain ⟨slot, expected, bucket, hfind, hat⟩ := Disk.findOrCreateEntry_step (L := L) hs key
      simp only [access, hfind, Option.map_some] at h
      cases h
      exact ⟨hat.sound, .of_change hat.change⟩
  | create record =>
      simp only [access] at h
      split at h
      · next hprev =>
          cases h
          exact ⟨hs.constructRecord (HasRecord.stored hprev), .of_construct hs⟩
      · cases h
  | rewrite address value invalid =>
      rw [access, Option.map_eq_some_iff] at h
      obtain ⟨r, hr, rfl⟩ := h
      exact ⟨hs.setRecord hr rfl, .of_change (Disk.change_setRecord _ hr rfl rfl)⟩
  | exchange b slot address =>
      simp only [access] at h
      split at h
      · next entry hslot =>
          split at h
          · next ha =>
              cases h
              exact ⟨sound_exchange hs hslot (HasRecord.stored ha), .of_same rfl rfl⟩
          · cases h
      · cases h
  | erase b slot =>
      simp only [access] at h
      split at h
      · next hslot =>
          cases h
          exact ⟨sound_erase hs hslot, .of_same rfl rfl⟩
      · cases h
  | lock b lock =>
      cases h
      exact ⟨⟨hs.begin, hs.head, hs.safe, hs.readOnly, hs.tail, hs.free, hs.low, hs.settled,
        hs.links, hs.entries⟩, .of_same rfl rfl⟩
  | shiftReadOnly address =>
      simp only [access] at h
      split at h
      · next hle =>
          cases h
          exact ⟨⟨hs.begin, hs.head, hs.safe, Nat.le_trans hs.readOnly hle.1, hle.2, hs.free,
            hs.low, hs.settled, hs.links, hs.entries⟩, .of_same rfl rfl⟩
      · cases h
  | shiftSafeReadOnly address =>
      simp only [access] at h
      split at h
      · next hle =>
          cases h
          exact ⟨⟨hs.begin, hs.head, Nat.le_trans hs.safe hle.1, hle.2, hs.tail, hs.free, hs.low,
            hs.settled, hs.links, hs.entries⟩, .of_same rfl rfl⟩
      · cases h
  | shiftHead address =>
      simp only [access] at h
      split at h
      · next hle =>
          cases h
          exact ⟨⟨hs.begin, Nat.le_trans hs.head hle.1, hle.2, hs.readOnly, hs.tail, hs.free,
            hs.low, hs.settled, hs.links, hs.entries⟩, .of_same rfl rfl⟩
      · cases h

end Accesses

end HashComp.Requests
