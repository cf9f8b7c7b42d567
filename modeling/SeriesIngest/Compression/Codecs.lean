import SeriesIngest.Compression.Compressor
import SeriesIngest.Compression.Gzip
import SeriesIngest.Compression.Lz4
/-! Codecs to run a client with. What a client does is not tied to them. -/
namespace SeriesIngest.Compression

def codecs : Codecs where
  gzip := Gzip.encode
  gunzip? := Gzip.decode?
  lz4 := Lz4.encode
  unlz4? := Lz4.decode?

end SeriesIngest.Compression
