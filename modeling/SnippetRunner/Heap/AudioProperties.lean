import SnippetRunner.Fields

/-
  Property lists of the audio types. The state of an audio object can be read but is not listed
  among its keys, so a fixed list says what to read.
-/
namespace SnippetRunner.AudioProperties

/-- What every node has. -/
def generic : List String :=
  ["numberOfInputs", "numberOfOutputs", "channelCount", "channelCountMode",
    "channelInterpretation"]

def context : List String :=
  ["sampleRate", "currentTime", "state", "baseLatency", "destination", "listener"]

/-- The properties of the known types, without what every node has. -/
def table : List (String × List String) := [
  ("AudioContext", context),
  ("BaseAudioContext", context),
  ("OfflineAudioContext",
    ["sampleRate", "currentTime", "state", "length", "destination", "listener"]),
  ("AudioBuffer", ["sampleRate", "length", "duration", "numberOfChannels"]),
  ("AudioParam", ["value", "defaultValue", "minValue", "maxValue", "automationRate"]),
  ("GainNode", ["gain"]),
  ("OscillatorNode", ["type", "frequency", "detune"]),
  ("BiquadFilterNode", ["type", "frequency", "detune", "Q", "gain"]),
  ("AudioBufferSourceNode",
    ["buffer", "playbackRate", "detune", "loop", "loopStart", "loopEnd"]),
  ("DelayNode", ["delayTime"]),
  ("AnalyserNode",
    ["fftSize", "frequencyBinCount", "minDecibels", "maxDecibels", "smoothingTimeConstant"]),
  ("StereoPannerNode", ["pan"]),
  ("DynamicsCompressorNode",
    ["threshold", "knee", "ratio", "reduction", "attack", "release"]),
  ("ConvolverNode", ["buffer", "normalize"]),
  ("WaveShaperNode", ["curve", "oversample"]),
  ("ConstantSourceNode", ["offset"]),
  ("PannerNode",
    ["panningModel", "distanceModel", "positionX", "positionY", "positionZ", "refDistance",
      "maxDistance", "rolloffFactor"]),
  ("AudioDestinationNode", ["maxChannelCount"])]

/-- Whether a type is a node: its name ends so, and is longer. -/
def isNode (typeName : String) : Bool :=
  let name := typeName.toList
  "Node".toList.isSuffixOf name && 4 < name.length

/-- What to read from an object of the type, if it is an audio type. -/
def find? (typeName : String) : Option (List String) :=
  match Fields.get? table typeName, isNode typeName with
  | some specific, true => some (specific ++ generic)
  | some specific, false => some specific
  | none, true => some generic
  | none, false => none

end SnippetRunner.AudioProperties
