import CommonCore.NetconfigTypes
import CommonCore.VariantProto

/-!
# Network configuration in protobuf messages

The messages have the fields that are set and read here. Enumerators go by their
numbers, and `lastSeen` and `lastScan` as `google::protobuf::Timestamp`.
-/

namespace CommonCore.Netconfig

open Enumeration

/-! ## Messages -/

namespace Proto

structure GlobalData where
  state : Int
  connectivity : Int
  wirelessHardwareEnabled : Bool
  wirelessEnabled : Bool
  wirelessAllowed : Bool
  wirelessBandSelection : Int

structure AddressData where
  address : Bytes
  prefixlength : UInt32

structure IPConfigData where
  method : Int
  addressData : List AddressData
  gateway : Bytes
  dns : List Bytes
  searches : List Bytes

structure WiredConnectionData where
  autoNegotiate : Bool

structure WEPData where
  authAlg : Int
  key : List Bytes
  keyIdx : UInt32
  keyType : Int

structure WPAData where
  psk : Bytes

structure EAPData where
  authAlg : Int
  eapType : Int
  eapPhase2 : Int
  anonymousIdentity : Bytes
  domain : Bytes
  identity : Bytes
  password : Bytes
  caCert : Bytes
  caCertPassword : Bytes
  clientCert : Bytes
  clientCertKey : Bytes
  clientCertPassword : Bytes
  pacFile : Bytes
  fastProvisioning : Int

inductive AuthCase
  | notSet
  | wep (data : WEPData)
  | wpa (data : WPAData)
  | eap (data : EAPData)

structure WirelessConnectionData where
  ssid : Bytes
  mode : Int
  hidden : Bool
  txPower : UInt32
  keyMgmt : Int
  authProtos : UInt32
  authType : Int
  auth : AuthCase
  band : Option Int

inductive DataCase
  | notSet
  | wired (data : WiredConnectionData)
  | wireless (data : WirelessConnectionData)

structure ConnectionData where
  id : Bytes
  interface : Bytes
  uuid : Bytes
  ip4config : IPConfigData
  ip6config : IPConfigData
  data : DataCase

structure ActiveConnectionData where
  id : Bytes
  type : Int
  state : Int
  stateReason : Int
  stateFlags : UInt32
  default4 : Bool
  default6 : Bool
  vpn : Bool
  uuid : Bytes
  ip4config : IPConfigData
  ip6config : IPConfigData

structure WiredDeviceData where
  speed : UInt32

structure Timestamp where
  seconds : Int
  nanos : Int

structure WirelessDeviceData where
  mode : Int
  bitrate : UInt32
  activeAccesspoint : Bytes
  lastScan : Timestamp

inductive DevicedataCase
  | notSet
  | wired (data : WiredDeviceData)
  | wireless (data : WirelessDeviceData)

structure DeviceData where
  type : Int
  state : Int
  stateReason : Int
  flags : UInt32
  interface : Bytes
  hwaddress : Bytes
  activeConnection : Bytes
  ip4config : IPConfigData
  ip6config : IPConfigData
  ip4connectivity : Int
  ip6connectivity : Int
  devicedata : DevicedataCase

structure AccessPointData where
  ssid : Bytes
  frequency : UInt32
  flags : UInt32
  rsnFlags : UInt32
  wpaFlags : UInt32
  hwaddress : Bytes
  mode : Int
  maxbitrate : UInt32
  strength : UInt8
  lastseen : Timestamp
  authType : Int

end Proto

def encodeTimePoint (tp : Int) : Proto.Timestamp where
  seconds := (toTimespec tp).1
  nanos := toInt32 (toTimespec tp).2

def decodeTimePoint (ts : Proto.Timestamp) : Int := toTimepoint ts.seconds ts.nanos

/-! ## Global data and IP configurations -/

def GlobalData.encode (data : GlobalData) : Proto.GlobalData where
  state := number data.state
  connectivity := number data.connectivity
  wirelessHardwareEnabled := data.wirelessHardwareEnabled
  wirelessEnabled := data.wirelessEnabled
  wirelessAllowed := data.wirelessAllowed
  wirelessBandSelection := number data.wirelessBandSelection

def Proto.GlobalData.decode (msg : Proto.GlobalData) : Netconfig.GlobalData where
  state := cast msg.state
  connectivity := cast msg.connectivity
  wirelessHardwareEnabled := msg.wirelessHardwareEnabled
  wirelessEnabled := msg.wirelessEnabled
  wirelessAllowed := msg.wirelessAllowed
  wirelessBandSelection := cast msg.wirelessBandSelection

def AddressData.encode (data : AddressData) : Proto.AddressData where
  address := data.address
  prefixlength := data.prefixlength

def Proto.AddressData.decode (msg : Proto.AddressData) : Netconfig.AddressData where
  address := msg.address
  prefixlength := msg.prefixlength

def IPConfigData.encode (config : IPConfigData) : Proto.IPConfigData where
  method := number config.method
  addressData := config.addressData.map AddressData.encode
  gateway := config.gateway
  dns := config.dns
  searches := config.searches

def Proto.IPConfigData.decode (msg : Proto.IPConfigData) : Netconfig.IPConfigData where
  method := cast msg.method
  addressData := msg.addressData.map Proto.AddressData.decode
  gateway := msg.gateway
  dns := msg.dns
  searches := msg.searches

/-! ## Connections -/

def WiredConnectionData.encode (data : WiredConnectionData) : Proto.WiredConnectionData where
  autoNegotiate := data.autoNegotiate

def Proto.WiredConnectionData.decode (msg : Proto.WiredConnectionData) : Netconfig.WiredConnectionData where
  autoNegotiate := msg.autoNegotiate

def WEPData.encode (auth : WEPData) : Proto.WEPData where
  authAlg := number auth.authAlg
  key := auth.keys
  keyIdx := auth.keyIdx
  keyType := number auth.keyType

/-- `std::vector::resize`, with empty keys. -/
def resize (n : ℕ) (keys : List Bytes) : List Bytes := keys.take n ++ List.replicate (n - keys.length) []

def Proto.WEPData.decode (msg : Proto.WEPData) : Netconfig.WEPData where
  authAlg := cast msg.authAlg
  keys := resize wepKeyCount msg.key
  keyIdx := if msg.keyIdx.toNat < wepKeyCount then msg.keyIdx else 0
  keyType := cast msg.keyType

def WPAData.encode (auth : WPAData) : Proto.WPAData where
  psk := auth.psk

def Proto.WPAData.decode (msg : Proto.WPAData) : Netconfig.WPAData where
  psk := msg.psk

def EAPData.encode (auth : EAPData) : Proto.EAPData where
  authAlg := number auth.authAlg
  eapType := number auth.eapType
  eapPhase2 := number auth.eapPhase2
  anonymousIdentity := auth.anonymousIdentity
  domain := auth.domain
  identity := auth.identity
  password := auth.password
  caCert := auth.caCert
  caCertPassword := auth.caCertPassword
  clientCert := auth.clientCert
  clientCertKey := auth.clientCertKey
  clientCertPassword := auth.clientCertPassword
  pacFile := auth.pacFile
  fastProvisioning := number auth.fastProvisioning

def Proto.EAPData.decode (msg : Proto.EAPData) : Netconfig.EAPData where
  authAlg := cast msg.authAlg
  eapType := cast msg.eapType
  eapPhase2 := cast msg.eapPhase2
  anonymousIdentity := msg.anonymousIdentity
  domain := msg.domain
  identity := msg.identity
  password := msg.password
  caCert := msg.caCert
  caCertPassword := msg.caCertPassword
  clientCert := msg.clientCert
  clientCertKey := msg.clientCertKey
  clientCertPassword := msg.clientCertPassword
  pacFile := msg.pacFile
  fastProvisioning := cast msg.fastProvisioning

def WirelessConnectionData.encode (data : WirelessConnectionData) : Proto.WirelessConnectionData where
  ssid := data.ssid
  mode := number data.mode
  hidden := data.hidden
  txPower := data.txPower
  keyMgmt := number data.keyMgmtType
  authProtos := data.authProtos
  authType := data.authType.number
  auth :=
    match data.auth with
    | .wep wep => .wep wep.encode
    | .wpa wpa => .wpa wpa.encode
    | .eap eap => .eap eap.encode
    | .monostate => .notSet
  band := data.band.map number

def Proto.WirelessConnectionData.decode (msg : Proto.WirelessConnectionData) : Netconfig.WirelessConnectionData where
  ssid := msg.ssid
  mode := cast msg.mode
  hidden := msg.hidden
  txPower := msg.txPower
  keyMgmt := cast msg.keyMgmt
  authProtos := msg.authProtos
  auth :=
    match msg.auth with
    | .wep wep => .wep wep.decode
    | .wpa wpa => .wpa wpa.decode
    | .eap eap => .eap eap.decode
    | .notSet => .monostate
  band := msg.band.map cast

def ConnectionData.encode (data : ConnectionData) : Proto.ConnectionData where
  id := data.id
  interface := data.interface
  uuid := data.uuid
  ip4config := data.ip4config.encode
  ip6config := data.ip6config.encode
  data :=
    match data.specificData with
    | .wired wired => .wired wired.encode
    | .wireless wireless => .wireless wireless.encode
    | .monostate => .notSet

def Proto.ConnectionData.decode (msg : Proto.ConnectionData) : Netconfig.ConnectionData where
  id := msg.id
  interface := msg.interface
  uuid := msg.uuid
  ip4config := msg.ip4config.decode
  ip6config := msg.ip6config.decode
  specificData :=
    match msg.data with
    | .wired wired => .wired wired.decode
    | .wireless wireless => .wireless wireless.decode
    | .notSet => .monostate

def ActiveConnectionData.encode (data : ActiveConnectionData) : Proto.ActiveConnectionData where
  id := data.id
  type := number data.type
  state := number data.state
  stateReason := number data.stateReason
  stateFlags := data.stateFlags
  default4 := data.default4
  default6 := data.default6
  vpn := data.vpn
  uuid := data.uuid
  ip4config := data.ip4config.encode
  ip6config := data.ip6config.encode

def Proto.ActiveConnectionData.decode (msg : Proto.ActiveConnectionData) : Netconfig.ActiveConnectionData where
  id := msg.id
  type := cast msg.type
  state := cast msg.state
  stateReason := cast msg.stateReason
  stateFlags := msg.stateFlags
  default4 := msg.default4
  default6 := msg.default6
  vpn := msg.vpn
  uuid := msg.uuid
  ip4config := msg.ip4config.decode
  ip6config := msg.ip6config.decode

/-! ## Devices and access points -/

def WiredDeviceData.encode (data : WiredDeviceData) : Proto.WiredDeviceData where
  speed := data.speed

def Proto.WiredDeviceData.decode (msg : Proto.WiredDeviceData) : Netconfig.WiredDeviceData where
  speed := msg.speed

def WirelessDeviceData.encode (data : WirelessDeviceData) : Proto.WirelessDeviceData where
  mode := number data.mode
  bitrate := data.bitrate
  activeAccesspoint := data.activeAccesspoint
  lastScan := encodeTimePoint data.lastScan

def Proto.WirelessDeviceData.decode (msg : Proto.WirelessDeviceData) : Netconfig.WirelessDeviceData where
  mode := cast msg.mode
  bitrate := msg.bitrate
  activeAccesspoint := msg.activeAccesspoint
  lastScan := decodeTimePoint msg.lastScan

def DeviceData.encode (device : DeviceData) : Proto.DeviceData where
  type := number device.type
  state := number device.state
  stateReason := number device.stateReason
  flags := device.flags
  interface := device.interface
  hwaddress := device.hwAddress
  activeConnection := device.activeConnection
  ip4config := device.ip4config.encode
  ip6config := device.ip6config.encode
  ip4connectivity := number device.ip4connectivity
  ip6connectivity := number device.ip6connectivity
  devicedata :=
    match device.specificData with
    | .wired wired => .wired wired.encode
    | .wireless wireless => .wireless wireless.encode
    | .monostate => .notSet

def Proto.DeviceData.decode (msg : Proto.DeviceData) : Netconfig.DeviceData where
  type := cast msg.type
  state := cast msg.state
  stateReason := cast msg.stateReason
  flags := msg.flags
  interface := msg.interface
  hwAddress := msg.hwaddress
  activeConnection := msg.activeConnection
  ip4config := msg.ip4config.decode
  ip6config := msg.ip6config.decode
  ip4connectivity := cast msg.ip4connectivity
  ip6connectivity := cast msg.ip6connectivity
  specificData :=
    match msg.devicedata with
    | .wired wired => .wired wired.decode
    | .wireless wireless => .wireless wireless.decode
    | .notSet => .monostate

def AccessPointData.encode (ap : AccessPointData) : Proto.AccessPointData where
  ssid := ap.ssid
  frequency := ap.frequency
  flags := ap.flags
  rsnFlags := ap.rsnFlags
  wpaFlags := ap.wpaFlags
  hwaddress := ap.hwAddress
  mode := number ap.mode
  maxbitrate := ap.maxbitrate
  strength := ap.strength
  lastseen := encodeTimePoint ap.lastSeen
  authType := ap.authType.number

def Proto.AccessPointData.decode (msg : Proto.AccessPointData) : Netconfig.AccessPointData where
  ssid := msg.ssid
  frequency := msg.frequency
  flags := msg.flags
  rsnFlags := msg.rsnFlags
  wpaFlags := msg.wpaFlags
  hwAddress := msg.hwaddress
  mode := cast msg.mode
  maxbitrate := msg.maxbitrate
  strength := msg.strength
  lastSeen := decodeTimePoint msg.lastseen

/-! ## Maps -/

/-- The order in which the entries of an unordered map come. -/
structure Iteration where
  order : {α : Type} → List (Bytes × α) → List (Bytes × α)
  perm : ∀ {α : Type} (l : List (Bytes × α)), (order l).Perm l

section
variable (I : Iteration) {α μ : Type}

/-- Each entry is encoded into the message at its key. No two keys have one text,
so that the message is a fresh one. -/
def encodeMap (key : Bytes → Bytes) (encode : α → μ) (map : List (Bytes × α)) : List (Bytes × μ) :=
  Keyed.putAll [] ((I.order map).map fun e => (key e.1, encode e.2))

def decodeMap (decode : μ → α) (msg : List (Bytes × μ)) : List (Bytes × α) :=
  Keyed.putAll [] ((I.order msg).map fun e => (e.1, decode e.2))

end

/-- What is sent, the maps in the order of their keys. -/
inductive Payload
  | connection (data : ConnectionData)
  | activeConnection (data : ActiveConnectionData)
  | device (data : DeviceData)
  | accessPoint (data : AccessPointData)
  | global (data : GlobalData)
  | connectionMap (map : List (Bytes × ConnectionData))
  | activeConnectionMap (map : List (Bytes × ActiveConnectionData))
  | deviceMap (map : List (Bytes × DeviceData))
  | accessPointMap (map : List (Bytes × AccessPointData))
  | ssidMap (map : List (Bytes × AccessPointData))

namespace Payload

/-- Encoded and decoded. The keys of an `SSIDMap` are encoded by `to_string`. -/
def transfer (I J : Iteration) : Payload → Payload
  | connection data => .connection data.encode.decode
  | activeConnection data => .activeConnection data.encode.decode
  | device data => .device data.encode.decode
  | accessPoint data => .accessPoint data.encode.decode
  | global data => .global data.encode.decode
  | connectionMap map => .connectionMap (decodeMap J Proto.ConnectionData.decode (encodeMap I id ConnectionData.encode map))
  | activeConnectionMap map =>
    .activeConnectionMap (decodeMap J Proto.ActiveConnectionData.decode (encodeMap I id ActiveConnectionData.encode map))
  | deviceMap map => .deviceMap (decodeMap J Proto.DeviceData.decode (encodeMap I id DeviceData.encode map))
  | accessPointMap map =>
    .accessPointMap (decodeMap J Proto.AccessPointData.decode (encodeMap I id AccessPointData.encode map))
  | ssidMap map => .ssidMap (decodeMap J Proto.AccessPointData.decode (encodeMap I byteStream AccessPointData.encode map))

/-- What is to come back. -/
def expected : Payload → Payload
  | connection data => .connection data.withKeyMgmtType
  | connectionMap map => .connectionMap (map.map fun e => (e.1, e.2.withKeyMgmtType))
  | p => p

end Payload

/-! ## What comes back -/

attribute [simp] Enumeration.cast_number

/-- There are as many WEP keys as there have to be, and one of them is in use. -/
def WEPData.Proper (wep : WEPData) : Prop := wep.keys.length = wepKeyCount ∧ wep.keyIdx.toNat < wepKeyCount

def ConnectionData.Proper (c : ConnectionData) : Prop :=
  ∀ w wep, c.specificData = .wireless w → w.auth = .wep wep → wep.Proper

theorem decodeTimePoint_encodeTimePoint (tp : Int) : decodeTimePoint (encodeTimePoint tp) = tp := toTimepoint_toTimespec tp

theorem GlobalData.decode_encode (data : GlobalData) : data.encode.decode = data := by
  simp [encode, Proto.GlobalData.decode]

theorem IPConfigData.decode_encode (config : IPConfigData) : config.encode.decode = config := by
  have : config.addressData.map (Proto.AddressData.decode ∘ AddressData.encode) = config.addressData :=
    List.map_id config.addressData
  simp [encode, Proto.IPConfigData.decode, this]

theorem WEPData.decode_encode {auth : WEPData} (h : auth.Proper) : auth.encode.decode = auth := by
  have hkeys : resize wepKeyCount auth.keys = auth.keys := by
    rw [resize, ← h.1, List.take_length, Nat.sub_self, List.replicate_zero, List.append_nil]
  simp [encode, Proto.WEPData.decode, hkeys, h.2]

theorem EAPData.decode_encode (auth : EAPData) : auth.encode.decode = auth := by
  simp [encode, Proto.EAPData.decode]

theorem WirelessConnectionData.decode_encode {data : WirelessConnectionData} (h : ∀ wep, data.auth = .wep wep → wep.Proper) :
    data.encode.decode = { data with keyMgmt := data.keyMgmtType } := by
  obtain ⟨ssid, mode, hidden, txPower, keyMgmt, authProtos, auth, band⟩ := data
  cases auth with
  | monostate => simp [encode, Proto.WirelessConnectionData.decode, Function.comp_def]
  | wep wep => simp [encode, Proto.WirelessConnectionData.decode, Function.comp_def, WEPData.decode_encode (h wep rfl)]
  | wpa wpa => simp [encode, Proto.WirelessConnectionData.decode, Function.comp_def, WPAData.encode, Proto.WPAData.decode]
  | eap eap => simp [encode, Proto.WirelessConnectionData.decode, Function.comp_def, eap.decode_encode]

theorem ConnectionData.decode_encode {data : ConnectionData} (h : data.Proper) :
    data.encode.decode = data.withKeyMgmtType := by
  obtain ⟨id, uuid, interface, specificData, ip4config, ip6config⟩ := data
  cases specificData with
  | monostate => simp [encode, Proto.ConnectionData.decode, withKeyMgmtType, IPConfigData.decode_encode]
  | wired wired =>
    simp [encode, Proto.ConnectionData.decode, withKeyMgmtType, IPConfigData.decode_encode, WiredConnectionData.encode,
      Proto.WiredConnectionData.decode]
  | wireless wireless =>
    simp [encode, Proto.ConnectionData.decode, withKeyMgmtType, IPConfigData.decode_encode,
      WirelessConnectionData.decode_encode fun wep => h wireless wep rfl]

theorem ActiveConnectionData.decode_encode (data : ActiveConnectionData) : data.encode.decode = data := by
  simp [encode, Proto.ActiveConnectionData.decode, IPConfigData.decode_encode]

theorem DeviceData.decode_encode (data : DeviceData) : data.encode.decode = data := by
  obtain ⟨type, state, stateReason, flags, interface, hwAddress, ip4config, ip6config, ip4connectivity, ip6connectivity,
    activeConnection, specificData⟩ := data
  cases specificData <;>
    simp [encode, Proto.DeviceData.decode, IPConfigData.decode_encode, WiredDeviceData.encode, Proto.WiredDeviceData.decode,
      WirelessDeviceData.encode, Proto.WirelessDeviceData.decode, decodeTimePoint_encodeTimePoint]

theorem AccessPointData.decode_encode (data : AccessPointData) : data.encode.decode = data := by
  simp [encode, Proto.AccessPointData.decode, decodeTimePoint_encodeTimePoint]

/-! ## Texts of keys -/

theorem length_le_byteStream (b : Bytes) : b.length ≤ (byteStream b).length := by
  induction b with
  | nil => simp
  | cons x b ih =>
    have : 1 ≤ (streamByte x).length := by
      unfold streamByte
      split_ifs <;> simp
    simp only [byteStream, List.flatMap_cons, List.length_append, List.length_cons] at ih ⊢
    omega

/-- The text of a key that is not plain is longer, and is not plain either. -/
theorem byteStream_longer {b : Bytes} (h : ¬ ∀ x ∈ b, PlainByte x) :
    b.length < (byteStream b).length ∧ ¬ ∀ x ∈ byteStream b, PlainByte x := by
  induction b with
  | nil => simp at h
  | cons x b ih =>
    have hcons : byteStream (x :: b) = streamByte x ++ byteStream b := rfl
    rw [hcons, List.length_append, List.length_cons]
    by_cases hx : PlainByte x
    · have hb := ih fun hb => h (List.forall_mem_cons.2 ⟨hx, hb⟩)
      rw [(streamByte_eq_iff x).2 hx, List.length_singleton]
      exact ⟨by omega, fun ha => hb.2 fun y hy => ha y (List.mem_append_right _ hy)⟩
    · have hs : 2 ≤ (streamByte x).length ∧ backslash ∈ streamByte x := by
        unfold streamByte
        split_ifs with h₁ h₂
        · simp
        · exact absurd ⟨h₁, h₂⟩ hx
        · simp [ascii, backslash]
      have := length_le_byteStream b
      exact ⟨by omega, fun ha => (ha backslash (List.mem_append_left _ hs.2)).1 rfl⟩

theorem hexDigits_inj {x y : UInt8} (h₁ : hexDigits.getD (x >>> 4).toNat 0 = hexDigits.getD (y >>> 4).toNat 0)
    (h₂ : hexDigits.getD (x &&& 0xf).toNat 0 = hexDigits.getD (y &&& 0xf).toNat 0) : x = y := by
  have hvalue : ∀ n : Fin 256, 16 * hexDigits.idxOf (hexDigits.getD ((UInt8.ofNat n) >>> 4).toNat 0) +
      hexDigits.idxOf (hexDigits.getD ((UInt8.ofNat n) &&& 0xf).toNat 0) = n := by
    decide +kernel
  have hx := hvalue ⟨x.toNat, x.toNat_lt⟩
  have hy := hvalue ⟨y.toNat, y.toNat_lt⟩
  simp only [UInt8.ofNat_toNat] at hx hy
  rw [← UInt8.toNat_inj, ← hx, ← hy, h₁, h₂]

theorem streamByte_append {x y : UInt8} {s t : Bytes} (h : streamByte x ++ s = streamByte y ++ t) : x = y ∧ s = t := by
  have hx : ¬ (0x78 : UInt8) = backslash := by decide
  unfold streamByte at h
  split_ifs at h with h₁ h₂ h₃ h₄ h₅ h₆ h₇ <;> simp [ascii] at h
  · exact ⟨h₁.trans h₂.symm, h⟩
  · exact absurd h.1.symm h₂
  · exact absurd h.2.1.symm hx
  · exact absurd h.1 h₁
  · exact h
  · exact absurd h.1 h₁
  · exact absurd h.2.1 hx
  · exact absurd h.1.symm h₇
  · exact ⟨hexDigits_inj (by simpa using h.1) (by simpa using h.2.1), h.2.2⟩

/-- No two keys have one text. -/
theorem byteStream_injective : Function.Injective byteStream := by
  have hne : ∀ (x : UInt8) (b : Bytes), byteStream (x :: b) ≠ [] := by
    intro x b h
    have := length_le_byteStream (x :: b)
    rw [h] at this
    simp at this
  intro a
  induction a with
  | nil =>
    intro b h
    cases b with
    | nil => rfl
    | cons y b => exact absurd h.symm (hne y b)
  | cons x a ih =>
    intro b h
    cases b with
    | nil => exact absurd h (hne x a)
    | cons y b =>
      obtain ⟨rfl, hs⟩ := streamByte_append h
      rw [ih hs]

/-! ## Maps -/

section
variable {I J : Iteration} {α μ : Type} {encode : α → μ} {decode : μ → α}

theorem decodeMap_eq {msg : List (Bytes × μ)} (h : Keyed.Ordered msg) :
    decodeMap J decode msg = msg.map fun e => (e.1, decode e.2) :=
  Keyed.putAll_of_perm ((Keyed.ordered_map decode).2 h) ((J.perm msg).map _)

theorem encodeMap_eq {key : Bytes → Bytes} {map : List (Bytes × α)} (h : Keyed.Ordered map) (hk : ∀ e ∈ map, key e.1 = e.1) :
    encodeMap I key encode map = map.map fun e => (e.1, encode e.2) := by
  have : (I.order map).map (fun e => (key e.1, encode e.2)) = (I.order map).map fun e => (e.1, encode e.2) :=
    List.map_congr_left fun e he => by rw [hk e ((I.perm map).mem_iff.1 he)]
  rw [encodeMap, this]
  exact Keyed.putAll_of_perm ((Keyed.ordered_map encode).2 h) ((I.perm map).map _)

theorem map_restored {key : Bytes → Bytes} {map : List (Bytes × α)} {f : α → α} (h : Keyed.Ordered map)
    (hk : ∀ e ∈ map, key e.1 = e.1) (hf : ∀ e ∈ map, decode (encode e.2) = f e.2) :
    decodeMap J decode (encodeMap I key encode map) = map.map fun e => (e.1, f e.2) := by
  rw [encodeMap_eq h hk, decodeMap_eq ((Keyed.ordered_map encode).2 h), List.map_map]
  exact List.map_congr_left fun e he => Prod.ext rfl (hf e he)

theorem encodeMap_ordered (key : Bytes → Bytes) (map : List (Bytes × α)) : Keyed.Ordered (encodeMap I key encode map) :=
  Keyed.putAll_ordered List.Pairwise.nil

theorem mem_keys_encodeMap {key : Bytes → Bytes} {map : List (Bytes × α)} {e : Bytes × α} (he : e ∈ map) :
    key e.1 ∈ (encodeMap I key encode map).map Prod.fst := by
  have he' : (key e.1, encode e.2) ∈ (I.order map).map fun e => (key e.1, encode e.2) :=
    List.mem_map_of_mem (f := fun e : Bytes × α => (key e.1, encode e.2)) ((I.perm map).mem_iff.2 he)
  exact Keyed.mem_keys_putAll (.inr (List.mem_map_of_mem (f := Prod.fst) he'))

/-- What is not plain has a longer text, and so on, but the keys are finitely many. -/
theorem ssids_restored_iff {map : List (Bytes × α)} (h : Keyed.Ordered map) (hd : ∀ v, decode (encode v) = v) :
    decodeMap J decode (encodeMap I byteStream encode map) = map ↔ ∀ e ∈ map, ∀ x ∈ e.1, PlainByte x := by
  constructor
  · intro heq e he
    have hkeys : ∀ e ∈ map, ∃ e' ∈ map, e'.1 = byteStream e.1 := by
      intro e he
      have hmem := @mem_keys_encodeMap I α μ encode byteStream map e he
      rw [decodeMap_eq (encodeMap_ordered byteStream map)] at heq
      obtain ⟨e', he', hk⟩ := List.mem_map.1 hmem
      exact ⟨(e'.1, decode e'.2), heq ▸ List.mem_map_of_mem he', hk⟩
    by_contra hne
    have hlong : ∀ n, ∃ e ∈ map, (¬ ∀ x ∈ e.1, PlainByte x) ∧ n ≤ e.1.length := by
      intro n
      induction n with
      | zero => exact ⟨e, he, hne, Nat.zero_le _⟩
      | succ n ih =>
        obtain ⟨e, he, hp, hn⟩ := ih
        obtain ⟨e', he', hk⟩ := hkeys e he
        obtain ⟨hlt, hp'⟩ := byteStream_longer hp
        exact ⟨e', he', hk ▸ hp', hk ▸ Nat.le_trans (Nat.succ_le_succ hn) hlt⟩
    obtain ⟨e, he, -, hn⟩ := hlong ((map.map fun e => e.1.length).sum + 1)
    have := List.single_le_sum (by simp) _ (List.mem_map_of_mem (f := fun e : Bytes × α => e.1.length) he)
    omega
  · intro hp
    have := map_restored (I := I) (J := J) (f := id) h
      (fun e he => (byteStream_eq_iff e.1).2 (hp e he)) fun e _ => hd e.2
    rw [this]
    exact List.map_id map

end

namespace Payload

/-- A connection that is valid, and maps in the order of their keys. -/
def Valid : Payload → Prop
  | connection data => data.isValid = true ∧ data.Proper
  | connectionMap map => Keyed.Ordered map ∧ ∀ e ∈ map, e.2.isValid = true ∧ e.2.Proper
  | activeConnectionMap map => Keyed.Ordered map
  | deviceMap map => Keyed.Ordered map
  | accessPointMap map => Keyed.Ordered map
  | ssidMap map => Keyed.Ordered map
  | _ => True

/-- The keys of an `SSIDMap` are printable, and without backslashes. -/
def PlainKeys : Payload → Prop
  | ssidMap map => ∀ e ∈ map, ∀ x ∈ e.1, PlainByte x
  | _ => True

theorem map_unchanged {I J : Iteration} {α μ : Type} {encode : α → μ} {decode : μ → α} {map : List (Bytes × α)}
    (h : Keyed.Ordered map) (hd : ∀ v, decode (encode v) = v) : decodeMap J decode (encodeMap I id encode map) = map :=
  (map_restored (f := id) h (fun _ _ => rfl) fun e _ => hd e.2).trans (List.map_id map)

end Payload

/-- What is sent comes back if and only if no key of an `SSIDMap` is escaped. -/
theorem payload_restored_iff (I J : Iteration) {p : Payload} (h : p.Valid) : p.transfer I J = p.expected ↔ p.PlainKeys := by
  cases p with
  | connection data => exact iff_of_true (congrArg Payload.connection (ConnectionData.decode_encode h.2)) trivial
  | activeConnection data => exact iff_of_true (congrArg Payload.activeConnection data.decode_encode) trivial
  | device data => exact iff_of_true (congrArg Payload.device data.decode_encode) trivial
  | accessPoint data => exact iff_of_true (congrArg Payload.accessPoint data.decode_encode) trivial
  | global data => exact iff_of_true (congrArg Payload.global data.decode_encode) trivial
  | connectionMap map =>
    exact iff_of_true (congrArg Payload.connectionMap (map_restored h.1 (fun _ _ => rfl) fun e he =>
      ConnectionData.decode_encode (h.2 e he).2)) trivial
  | activeConnectionMap map =>
    exact iff_of_true (congrArg Payload.activeConnectionMap (Payload.map_unchanged h ActiveConnectionData.decode_encode)) trivial
  | deviceMap map => exact iff_of_true (congrArg Payload.deviceMap (Payload.map_unchanged h DeviceData.decode_encode)) trivial
  | accessPointMap map =>
    exact iff_of_true (congrArg Payload.accessPointMap (Payload.map_unchanged h AccessPointData.decode_encode)) trivial
  | ssidMap map =>
    exact Payload.ssidMap.injEq _ _ ▸ ssids_restored_iff h AccessPointData.decode_encode

/-- Maps are iterated in the order of their keys. -/
def inOrder : Iteration := ⟨id, fun _ => .refl _⟩

def homeMap : Payload :=
  .ssidMap [
    (ascii "Home", { ssid := ascii "Home", lastSeen := -1 }),
    (ascii "Work", { ssid := ascii "Work", flags := nm80211ApFlagsPrivacy, strength := 40 })]

/-- A network with WEP keys, and one that gets its addresses by itself. -/
def homeConnections : Payload :=
  .connectionMap [
    (ascii "Home", {
      id := ascii "Home"
      specificData := .wireless {
        ssid := ascii "Home"
        auth := .wep { keys := [ascii "first", ascii "second", [], []], keyIdx := 1 } }
      ip4config := { method := .methodAuto }
      ip6config := { method := .methodDisabled } }),
    (ascii "Wired", {
      id := ascii "Wired"
      specificData := .wired { autoNegotiate := true }
      ip4config := { method := .methodAuto }
      ip6config := { method := .methodAuto } })]

theorem homeMap_restored : homeMap.transfer inOrder inOrder = homeMap ∧
    homeConnections.transfer inOrder inOrder = homeConnections.expected := by
  constructor
  · have hv : homeMap.Valid := List.pairwise_pair.2 (by decide)
    refine (payload_restored_iff inOrder inOrder hv).2 ?_
    simp [homeMap, Payload.PlainKeys, PlainByte, ascii, backslash]
  · have hproper : ∀ {auth : AuthenticationData}, auth = .wep { keys := [ascii "first", ascii "second", [], []], keyIdx := 1 } →
        ∀ wep, auth = .wep wep → wep.Proper := by
      rintro _ rfl wep ⟨⟩
      exact ⟨rfl, by decide⟩
    have hv : homeConnections.Valid := by
      refine ⟨List.pairwise_pair.2 (by decide), ?_⟩
      simp only [List.forall_mem_cons]
      refine ⟨⟨by decide, ?_⟩, ⟨by decide, fun w wep hw => by cases hw⟩, List.forall_mem_nil _⟩
      rintro w wep ⟨⟩ hauth
      exact hproper rfl wep hauth
    exact (payload_restored_iff inOrder inOrder hv).2 trivial

/-- A key of one backslash comes back as two. -/
theorem ssid_not_restored : ¬ ∀ p : Payload, p.Valid → p.transfer inOrder inOrder = p.expected := by
  intro h
  have := h (.ssidMap [([backslash], {})]) (List.pairwise_singleton _ _)
  have hkey := congrArg (fun p => match p with | .ssidMap m => m.map Prod.fst | _ => []) this
  exact absurd hkey (by decide)

end CommonCore.Netconfig
